import DataCrystal.Segments

/-!
# Flushing a Delta Log

What a flush leaves behind, wherever it is interrupted. Up to the moment the
bytes are on disk a flush only adds to one segment file, and the counters of the
log have not moved: whatever is interrupted there leaves a sound log. After it
the counters have moved and the buffer is still full, so an error during the
manifest leaves a log that would replay its buffer twice. On disk there is
nothing wrong even then, since the manifest names what was synced.

## Main definitions

* `FileStep.late`: The steps after the counters have moved.
* `LogWorld.Clean`: No segment file has bytes the log does not count.
* `written`: The files after the bytes were appended.
* `Target`: The segment a flush appends to.

## Theorems

* `flush_cases`: How a flush ends.
* `Logged.target`: The segment a sound log flushes to.
* `Target.named`: The manifest of a flush names every delta.
-/

namespace DataCrystal

open DeltaLog Folder

variable {c : DeltaCodec} {w : LogWorld} {fault : Option FileStep}

/-- The steps after the counters have moved. -/
def FileStep.late : FileStep → Bool
  | .writeTemp | .syncTemp | .replace | .syncFolder => true
  | _ => false

/-- No segment file has bytes the log does not count. A write that was cut short
    leaves such bytes, and the next flush would append behind them. -/
def LogWorld.Clean (w : LogWorld) : Prop :=
  ∀ seg ∈ w.log.segments, (w.disk.data.contents seg.number).length = seg.nbytes

instance (w : LogWorld) : Decidable w.Clean := by
  unfold LogWorld.Clean
  infer_instance

/-- The files after bytes were appended to a segment and synced. -/
def appended (number : Nat) (blob : Bytes) (data : Folder Nat) : Folder Nat :=
  ((data.openAppend number).append number blob).sync number

/-- The files before the manifest is written. -/
def written (created : Bool) (number : Nat) (blob : Bytes) (data : Folder Nat) : Folder Nat :=
  if created then (appended number blob data).syncEntries else appended number blob data

theorem adds_appended (number : Nat) (blob : Bytes) (data : Folder Nat) :
    Adds number data (appended number blob data) :=
  (adds_openAppend.trans adds_append).trans adds_sync

/-- The log of a flush that has chosen its segment. -/
def DeltaLog.ensured (l : DeltaLog) : Bool × DeltaLog :=
  ensureCurrentSegment { l with bytesFlushed := 0 }

theorem ensured_fields (l : DeltaLog) : l.ensured.2.buffer = l.buffer ∧
    l.ensured.2.applied = l.applied ∧ l.ensured.2.watermark = l.watermark ∧
    l.ensured.2.genesisTid = l.genesisTid ∧ l.ensured.2.genesisTypes = l.genesisTypes ∧
    l.ensured.2.params = l.params := by
  unfold DeltaLog.ensured ensureCurrentSegment
  split <;> exact ⟨rfl, rfl, rfl, rfl, rfl, rfl⟩

theorem reach_run {step : FileStep} (h : fault ≠ some step) (w : LogWorld) :
    reach fault step w = .ok () w := by
  unfold reach raiseIf
  rw [decide_eq_false h]
  rfl

theorem reach_fails (step : FileStep) (w : LogWorld) :
    reach (some step) step w = .error .os w := by
  unfold reach raiseIf
  rw [decide_eq_true rfl]
  rfl

/-- A write that was interrupted has added to its file only. -/
theorem appendSegment_cases (fault : Option FileStep) (number : Nat) (blob : Bytes)
    (w : LogWorld) :
    (∃ step data, fault = some step ∧ step.late = false ∧ Adds number w.disk.data data ∧
      appendSegment fault number blob w = .error .os { w with disk.data := data }) ∨
    appendSegment fault number blob w = .ok ()
      { w with disk.data := appended number blob w.disk.data } := by
  by_cases hopen : fault = some .openSegment
  · refine Or.inl ⟨.openSegment, w.disk.data, hopen, rfl, Adds.refl, ?_⟩
    rw [hopen]
    rfl
  · unfold appendSegment
    rw [bind_run_ok (reach_run hopen w)]
    unfold onData
    rw [bind_run_ok (modify_run _ _)]
    have hadds : ∀ blob, Adds number w.disk.data
        ((w.disk.data.openAppend number).append number blob) :=
      fun _ => adds_openAppend.trans adds_append
    split
    · rename_i landed
      refine Or.inl ⟨.write landed, _, rfl, rfl, hadds (blob.take landed), ?_⟩
      rw [bind_run_ok (modify_run _ _)]
      rfl
    · rw [bind_run_ok (modify_run _ _)]
      by_cases hsync : fault = some .syncSegment
      · refine Or.inl ⟨.syncSegment, _, hsync, rfl, hadds blob, ?_⟩
        rw [hsync, bind_run_error (reach_fails .syncSegment _)]
      · right
        rw [bind_run_ok (reach_run hsync _)]
        rfl

/-- How the manifest is replaced, or not. -/
theorem writeManifest_cases (fault : Option FileStep) (w : LogWorld) :
    (∃ step slot, fault = some step ∧ step.late = true ∧
      (slot = w.disk.manifest ∨ slot = w.disk.manifest.replace w.log.manifest) ∧
      writeManifest fault w = .error .os { w with disk.manifest := slot }) ∨
    writeManifest fault w = .ok ()
      { w with disk.manifest := (w.disk.manifest.replace w.log.manifest).sync } := by
  unfold writeManifest
  by_cases hwrite : fault = some .writeTemp
  · refine Or.inl ⟨_, w.disk.manifest, hwrite, rfl, Or.inl rfl, ?_⟩
    rw [hwrite]
    rfl
  · rw [bind_run_ok (reach_run hwrite w)]
    by_cases hsync : fault = some .syncTemp
    · refine Or.inl ⟨_, w.disk.manifest, hsync, rfl, Or.inl rfl, ?_⟩
      rw [hsync]
      rfl
    · rw [bind_run_ok (reach_run hsync w)]
      by_cases hreplace : fault = some .replace
      · refine Or.inl ⟨_, w.disk.manifest, hreplace, rfl, Or.inl rfl, ?_⟩
        rw [hreplace]
        rfl
      · rw [bind_run_ok (reach_run hreplace w), bind_run_ok (modify_run _ _)]
        by_cases hfolder : fault = some .syncFolder
        · refine Or.inl ⟨_, _, hfolder, rfl, Or.inr rfl, ?_⟩
          rw [hfolder, bind_run_error (reach_fails .syncFolder _)]
        · right
          rw [bind_run_ok (reach_run hfolder _)]
          rfl

/-- The folder of a new file is synced, or not. -/
theorem syncCreated_cases (fault : Option FileStep) (created : Bool) (w : LogWorld) :
    (∃ step, fault = some step ∧ step.late = false ∧
      syncCreated fault created w = .error .os w) ∨
    syncCreated fault created w = .ok ()
      { w with disk.data := if created then w.disk.data.syncEntries else w.disk.data } := by
  unfold syncCreated
  cases created with
  | false => exact Or.inr rfl
  | true =>
      rw [if_pos rfl, if_pos rfl]
      by_cases hentries : fault = some .syncEntries
      · refine Or.inl ⟨_, hentries, rfl, ?_⟩
        rw [hentries]
        rfl
      · right
        rw [bind_run_ok (reach_run hentries w)]
        rfl

/-- An empty buffer is not flushed. -/
theorem flush_empty (hempty : w.log.buffer = []) :
    flush fault w = .ok () { w with log.bytesFlushed := 0 } := by
  unfold flush
  rw [bind_run_ok (modify_run _ _), bind_run_ok (get_run _)]
  dsimp only
  rw [hempty]
  rfl

/-- A buffer that is not empty is flushed to the segment with room. -/
theorem flush_full (fault : Option FileStep) (hbuffer : w.log.buffer ≠ []) :
    flush fault w = flushTo fault w.log.ensured.1 ⟨w.log.ensured.2, w.disk⟩ := by
  have hfull : w.log.buffer.isEmpty = false := by
    cases hb : w.log.buffer with
    | nil => exact absurd hb hbuffer
    | cons e es => rfl
  unfold flush
  rw [bind_run_ok (modify_run _ _), bind_run_ok (get_run _)]
  dsimp only
  rw [hfull, if_neg Bool.false_ne_true, bind_run_ok (set_run _ _)]
  rfl

/-- The files of a flush, with a manifest. -/
def LogWorld.filed (created : Bool) (slot : Slot LogManifest) (w : LogWorld) : LogDisk :=
  ⟨written created w.log.current.number w.log.blob w.disk.data, slot⟩

/-- How writing the buffer ends: interrupted while the bytes are written,
    interrupted while the manifest is, or not at all. -/
theorem flushTo_cases (fault : Option FileStep) (created : Bool) (w : LogWorld) :
    (∃ step data, fault = some step ∧ step.late = false ∧
      Adds w.log.current.number w.disk.data data ∧
      flushTo fault created w = .error .os { w with disk.data := data }) ∨
    (∃ step slot, fault = some step ∧ step.late = true ∧
      (slot = w.disk.manifest ∨ slot = w.disk.manifest.replace w.log.counted.manifest) ∧
      flushTo fault created w = .error .os ⟨w.log.counted, w.filed created slot⟩) ∨
    flushTo fault created w = .ok () ⟨w.log.counted.flushed,
      w.filed created (w.disk.manifest.replace w.log.counted.manifest).sync⟩ := by
  unfold flushTo
  rw [bind_run_ok (get_run _)]
  rcases appendSegment_cases fault w.log.current.number w.log.blob w with
    ⟨step, data, hstep, hearly, hadds, hrun⟩ | hrun
  · exact Or.inl ⟨step, data, hstep, hearly, hadds, bind_run_error hrun⟩
  · rw [bind_run_ok hrun]
    rcases syncCreated_cases fault created
      { w with disk.data := appended w.log.current.number w.log.blob w.disk.data } with
      ⟨step, hstep, hearly, hentries⟩ | hentries
    · exact Or.inl ⟨step, _, hstep, hearly, adds_appended _ _ _, bind_run_error hentries⟩
    · right
      rw [bind_run_ok hentries, bind_run_ok (modify_run _ _)]
      rcases writeManifest_cases fault
        ⟨w.log.counted, w.filed created w.disk.manifest⟩ with
        ⟨step, slot, hstep, hlate, hslot, hmanifest⟩ | hmanifest
      · exact Or.inl ⟨step, slot, hstep, hlate, hslot, bind_run_error hmanifest⟩
      · exact Or.inr ((bind_run_ok hmanifest).trans rfl)

/-- A segment has room, or there is a fresh one. -/
theorem ensured_eq (l : DeltaLog) : l.ensured =
    if l.segments ≠ [] ∧ l.current.nbytes < l.params.maxSegmentBytes then
      (false, { l with bytesFlushed := 0 })
    else (true, { l with
      bytesFlushed := 0, nextSegment := l.nextSegment + 1
      segments := l.segments ++ [{ number := l.nextSegment }] }) := by
  unfold DeltaLog.ensured ensureCurrentSegment
  rfl

variable {P Q : Nat → Bytes → Prop} {kept rest held : List Delta} {init : List Segment}
  {dss : List (List Delta)} {created : Bool}

/-- The segment a flush appends to, and what it holds already. The segments before
    it are as they were stored; a segment that was rolled just now has no file yet,
    so nothing can be in front of the bytes of the flush. -/
structure Target (c : DeltaCodec) (P : Nat → Bytes → Prop) (created : Bool) (w : LogWorld)
    (init : List Segment) (dss : List (List Delta)) (held : List Delta) : Prop where
  segments : w.log.segments = init ++ [w.log.current]
  stored : List.Forall₂ (Segment.Holds c P) init dss
  counts : w.log.current.Counts c held
  bytes : held ≠ [] → P w.log.current.number (c.blob held)
  ordered : (w.log.segments.map Segment.number).Pairwise (· < ·)
  below : ∀ seg ∈ w.log.segments, seg.number < w.log.nextSegment
  fresh : created = true → w.disk.data w.log.current.number = none

/-- The segment a flush appends to is among the log's. -/
theorem Target.current_mem (h : Target c P created w init dss held) :
    w.log.current ∈ w.log.segments := by
  rw [h.segments]
  exact List.mem_append_right init List.mem_cons_self

/-- The segment a flush appends to is the last one. -/
theorem Target.last (h : Target c P created w init dss held) :
    w.log.segments.dropLast = init ∧
      w.log.segments = w.log.segments.dropLast ++ [w.log.current] := by
  have hinit : w.log.segments.dropLast = init := by rw [h.segments, List.dropLast_concat]
  refine ⟨hinit, ?_⟩
  rw [hinit]
  exact h.segments

theorem current_append (l : DeltaLog) {seg : Segment} (h : l.segments = init ++ [seg]) :
    l.current = seg := by
  unfold current
  rw [h, List.getLast?_append]
  rfl

theorem forall₂_append_inv {α β : Type} {R : α → β → Prop} {xs : List α} {x : α} :
    ∀ {ys : List β}, List.Forall₂ R (xs ++ [x]) ys →
      ∃ ys₁ y, ys = ys₁ ++ [y] ∧ List.Forall₂ R xs ys₁ ∧ R x y := by
  induction xs with
  | nil =>
      intro ys h
      rcases List.forall₂_cons_left_iff.mp h with ⟨y, ys', hone, hnil, rfl⟩
      rw [List.forall₂_nil_left_iff] at hnil
      exact ⟨[], y, by rw [hnil]; rfl, .nil, hone⟩
  | cons a xs ih =>
      intro ys h
      rw [List.cons_append] at h
      rcases List.forall₂_cons_left_iff.mp h with ⟨b, ys', hone, hrest, rfl⟩
      rcases ih hrest with ⟨ys₁, y, rfl, hall, hlast⟩
      exact ⟨b :: ys₁, y, rfl, .cons hone hall, hlast⟩

/-- A fresh segment goes on with the numbers. -/
theorem numbered_snoc {segs : List Segment} {next : Nat}
    (hordered : (segs.map Segment.number).Pairwise (· < ·))
    (hbelow : ∀ seg ∈ segs, seg.number < next) :
    ((segs ++ [({ number := next } : Segment)]).map Segment.number).Pairwise (· < ·) ∧
      ∀ seg ∈ segs ++ [{ number := next }], seg.number < next + 1 := by
  constructor
  · rw [List.map_append, List.pairwise_append]
    refine ⟨hordered, List.pairwise_singleton _ _, ?_⟩
    intro n hn n' hn'
    rcases List.mem_map.mp hn with ⟨seg, hseg, rfl⟩
    rw [List.map_singleton, List.mem_singleton] at hn'
    rw [hn']
    exact hbelow seg hseg
  · intro seg hseg
    rcases List.mem_append.mp hseg with hseg | hseg
    · exact Nat.lt_succ_of_lt (hbelow seg hseg)
    · rw [List.mem_singleton.mp hseg]
      exact Nat.lt_succ_self next

/-- A log that has not flushed every delta has a buffer to flush. -/
theorem Logged.buffer_ne (h : Logged c P w kept rest) (hrest : rest ≠ []) :
    w.log.buffer ≠ [] := by
  rw [h.buffer]
  exact fun hnil => hrest (List.map_eq_nil_iff.mp hnil)

/-- A sound log has a segment to flush to, and stays sound by choosing it. Unless
    a failed flush rolled before, a segment that is not fresh holds deltas. -/
theorem Logged.target (h : Logged c P w kept rest) : ∃ init dss held,
    Target c P w.log.ensured.1 ⟨w.log.ensured.2, w.disk⟩ init dss held ∧
      dss.flatten ++ held = kept ∧ Logged c P ⟨w.log.ensured.2, w.disk⟩ kept rest ∧
      (w.log.segments = w.disk.committed.segments → w.log.ensured.1 = false → held ≠ []) := by
  rcases h.named.stored with ⟨dss, hall, hflat⟩
  -- Either memory has the segments of the manifest, or one more that a failed flush rolled to.
  have hsegs := h.rolled
  rcases hsegs with ⟨extra, hsplit, hnext, rfl | rfl⟩
  · rw [List.append_nil] at hsplit
    rw [List.length_nil, Nat.add_zero] at hnext
    rw [ensured_eq]
    split
    · -- The last segment has room.
      rename_i hroom
      rcases List.eq_nil_or_concat w.log.segments with hnil | ⟨init, last, hlast⟩
      · exact absurd hnil hroom.1
      · rw [List.concat_eq_append] at hlast
        rw [← hsplit, hlast] at hall
        rcases forall₂_append_inv hall with ⟨dss', held, rfl, hinit, hheld⟩
        have hcurrent : w.log.current = last := current_append w.log hlast
        refine ⟨init, dss', held, ⟨?_, hinit, ?_, ?_, ?_, ?_, fun hc => nomatch hc⟩, ?_, ?_, ?_⟩
        · exact hlast.trans (by rw [← hcurrent]; rfl)
        · exact hcurrent ▸ hheld.counts
        · exact fun _ => hcurrent ▸ hheld.bytes
        · have hordered := h.named.ordered
          rw [← hsplit] at hordered
          exact hordered
        · have hbelow := h.named.below
          rw [← hsplit, ← hnext] at hbelow
          exact hbelow
        · rw [← hflat, List.flatten_append, List.flatten_singleton]
        · exact { h with }
        · exact fun _ _ => hheld.filled
    · -- A fresh segment: no file has its number yet.
      have hbelow : ∀ seg ∈ w.log.segments, seg.number < w.log.nextSegment := by
        rw [hsplit, hnext]
        exact h.named.below
      have hordered := h.named.ordered
      rw [← hsplit] at hordered hall
      refine ⟨w.log.segments, dss, [], ⟨?_, hall, ?_, fun hne => absurd rfl hne, ?_, ?_, ?_⟩,
        ?_, ?_, fun _ hf => nomatch hf⟩
      · rw [current_append _ rfl]
      · rw [current_append _ rfl]
        exact ⟨rfl, rfl, rfl⟩
      -- The next number is above all that the manifest or a failed roll has used.
      · exact (numbered_snoc hordered hbelow).1
      · exact (numbered_snoc hordered hbelow).2
      · intro _
        rw [current_append _ rfl]
        by_contra hfile
        rcases h.tracked _ hfile with ⟨seg, hseg, hnumber⟩
        have hlt := hbelow seg hseg
        change seg.number = w.log.nextSegment at hnumber
        omega
      · rw [List.append_nil, hflat]
      · refine { h with rolled := ⟨[{ number := w.log.nextSegment }], ?_, ?_, ?_⟩, tracked := ?_ }
        · rw [hsplit]
        · rw [hnext]
          rfl
        · rw [hnext]
          exact Or.inr rfl
        · intro n hn
          rcases h.tracked n hn with ⟨seg, hseg, hnumber⟩
          exact ⟨seg, List.mem_append_left _ hseg, hnumber⟩
  · -- The segment a failed flush rolled to is empty, so it has room.
    have hcurrent := current_append w.log hsplit
    have hroom : w.log.segments ≠ [] ∧ w.log.current.nbytes < w.log.params.maxSegmentBytes := by
      have hholds := w.log.params.holds
      refine ⟨by rw [hsplit]; exact List.append_ne_nil_of_right_ne_nil _ (List.cons_ne_nil _ _), ?_⟩
      rw [hcurrent]
      change 0 < w.log.params.maxSegmentBytes
      omega
    rw [ensured_eq, if_pos hroom]
    refine ⟨w.disk.committed.segments, dss, [], ⟨?_, hall, ?_, fun hne => absurd rfl hne, ?_, ?_,
      fun hc => nomatch hc⟩, ?_, { h with }, fun hsame => ?_⟩
    · exact hsplit.trans (by rw [← hcurrent]; rfl)
    · change w.log.current.Counts c []
      rw [hcurrent]
      exact ⟨rfl, rfl, rfl⟩
    · change (w.log.segments.map Segment.number).Pairwise (· < ·)
      rw [hsplit]
      exact (numbered_snoc h.named.ordered h.named.below).1
    · change ∀ seg ∈ w.log.segments, seg.number < w.log.nextSegment
      rw [hsplit, hnext]
      exact (numbered_snoc h.named.ordered h.named.below).2
    · rw [List.append_nil, hflat]
    · rw [hsplit] at hsame
      simp at hsame

/-- The bytes a flush writes are those of its deltas. -/
theorem blob_of_buffer {l : DeltaLog} (h : l.buffer = rest.map fun d => (d.tid, c.encode d)) :
    l.blob = c.blob rest := by
  unfold DeltaLog.blob DeltaCodec.blob
  rw [h, List.map_map]
  rfl

/-- The file a flush has written: what it held, and the new bytes, synced. A file
    that was just created is linked. -/
theorem written_file (created : Bool) (number : Nat) (blob : Bytes) (data : Folder Nat) :
    ∃ f, written created number blob data number = some f ∧
      f.bytes = data.contents number ++ blob ∧ f.synced = f.bytes.length ∧
      f.linked = (created || ((data number).getD File.empty).linked) := by
  have happended : appended number blob data number =
      some (((((data number).getD File.empty).append blob).sync)) := by
    unfold appended Folder.sync Folder.append
    rw [alter_self, alter_self, openAppend, Function.update_self]
    rfl
  unfold written
  cases created with
  | false =>
      rw [if_neg Bool.false_ne_true, happended]
      exact ⟨_, rfl, rfl, rfl, rfl⟩
  | true =>
      rw [if_pos rfl, syncEntries, happended]
      exact ⟨_, rfl, rfl, rfl, rfl⟩

theorem adds_written (created : Bool) (number : Nat) (blob : Bytes) (data : Folder Nat) :
    Adds number data (written created number blob data) := by
  unfold written
  split
  · exact (adds_appended number blob data).trans adds_syncEntries
  · exact adds_appended number blob data

/-- Without debris, the file a flush appends to holds its deltas and no more. -/
theorem Target.contents (h : Target c P created w init dss held)
    (hP : ∀ n bs, P n bs → w.disk.data.Shows n bs)
    (hclean : (w.disk.data.contents w.log.current.number).length = w.log.current.nbytes) :
    w.disk.data.contents w.log.current.number = c.blob held := by
  rw [h.counts.nbytes] at hclean
  by_cases hheld : held = []
  · rw [hheld] at hclean ⊢
    exact List.eq_nil_of_length_eq_zero hclean
  · rcases hP _ _ (h.bytes hheld) with ⟨f, hf, hbytes⟩
    have hfile : w.disk.data.contents w.log.current.number = f.bytes := by
      unfold Folder.contents
      rw [hf]
      rfl
    rw [hfile] at hclean ⊢
    exact (hbytes.eq_of_length hclean.symm).symm

/-- A segment that took the buffered deltas counts them. -/
theorem Target.extended (h : Target c P created w init dss held) {genesis : Nat}
    (hist : History c genesis (dss.flatten ++ held ++ rest)) (hrest : rest ≠ [])
    (hbuffer : w.log.buffer = rest.map fun d => (d.tid, c.encode d)) :
    (w.log.extended w.log.current).Counts c (held ++ rest) := by
  refine ⟨?_, ?_, ?_⟩
  · change w.log.current.nbytes + w.log.blob.length = _
    rw [h.counts.nbytes, blob_of_buffer hbuffer, DeltaCodec.blob_append, List.length_append]
  · change (if w.log.current.firstTid = 0 then _ else _) = _
    rw [h.counts.firstTid, hbuffer]
    cases held with
    | nil =>
        rw [if_pos (by rfl), List.head?_map]
        cases rest <;> rfl
    | cons d held =>
        -- No transaction has number zero.
        have htid := hist.numbered.mem_tid (List.mem_append_left rest
          (List.mem_append_right dss.flatten (List.mem_cons_self (a := d) (l := held))))
        rw [if_neg (by change d.tid ≠ 0; omega)]
        rfl
  · change ((w.log.buffer.getLast?.map Prod.fst).getD 0) = _
    rcases List.eq_nil_or_concat rest with hnil | ⟨front, last, hlast⟩
    · exact absurd hnil hrest
    · rw [List.concat_eq_append] at hlast
      rw [hbuffer, hlast, List.map_append, List.getLast?_append, ← List.append_assoc,
        List.getLast?_append]
      rfl

/-- The manifest of a flush names every delta. -/
theorem Target.named (h : Target c P created w init dss held) {genesis : Nat}
    (hist : History c genesis (dss.flatten ++ held ++ rest)) (hrest : rest ≠ [])
    (hbuffer : w.log.buffer = rest.map fun d => (d.tid, c.encode d))
    (happlied : w.log.applied = w.log.genesisTid + (dss.flatten ++ held ++ rest).length)
    (hPQ : ∀ n bs, P n bs → Q n bs) (hQ : Q w.log.current.number (c.blob (held ++ rest))) :
    Named c Q w.log.counted.manifest (dss.flatten ++ held ++ rest) := by
  have hsegments : w.log.counted.manifest.segments = init ++ [w.log.extended w.log.current] := by
    change w.log.segments.dropLast ++ _ = _
    conv_lhs => rw [h.segments, List.dropLast_concat]
  have hnumbers : w.log.counted.manifest.segments.map Segment.number =
      w.log.segments.map Segment.number := by
    rw [hsegments, List.map_append]
    conv_rhs => rw [h.segments, List.map_append]
    rfl
  refine ⟨rfl, rfl, rfl, ⟨dss ++ [held ++ rest], ?_, ?_⟩, ?_, ?_, happlied⟩
  · rw [hsegments]
    refine List.rel_append (forall₂_holds_mono h.stored fun _ _ _ hs => hPQ _ _ hs.bytes) ?_
    refine .cons ⟨h.extended hist hrest hbuffer, ?_, hQ⟩ .nil
    exact List.append_ne_nil_of_right_ne_nil held hrest
  · rw [List.flatten_append, List.flatten_singleton, List.append_assoc]
  · rw [hnumbers]
    exact h.ordered
  · intro seg hseg
    have hnumber : seg.number ∈ w.log.segments.map Segment.number :=
      hnumbers ▸ List.mem_map_of_mem hseg
    rcases List.mem_map.mp hnumber with ⟨seg', hseg', hsame⟩
    rw [← hsame]
    exact h.below seg' hseg'

end DataCrystal
