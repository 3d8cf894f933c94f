import DataCrystal.DeltaLog

/-!
# What a Delta Log Holds

The invariant that ties a delta log to its files. The deltas it has taken in are
split in two: those the manifest names, spread over its segments, and those in
the buffer. Each segment counts its deltas, and its file starts with their
frames.

`Named` and `Logged` take the meaning of "its file starts with" as a parameter.
`Folder.Shows` is what a reader needs, and `Folder.Durable` is what survives a
crash, so both are about the same segments. A log whose flush failed may be one
segment ahead of its manifest; that segment holds nothing yet.

## Main definitions

* `History`: The deltas of a log, numbered from its start.
* `Segment.Holds`: A segment and its deltas.
* `Named`: A manifest and the deltas it names.
* `Logged`: A log, the deltas on file, and those in the buffer.

## Theorems

* `History.filter`: The deltas up to a transaction.
* `Logged.replay`: A sound log replays its deltas.
-/

namespace DataCrystal

variable {c : DeltaCodec} {data : Folder Nat}

/-- The bytes of deltas in a segment. -/
def DeltaCodec.blob (c : DeltaCodec) (ds : List Delta) : Bytes := frames (ds.map c.encode)

theorem DeltaCodec.blob_append (ds ds' : List Delta) :
    c.blob (ds ++ ds') = c.blob ds ++ c.blob ds' := by
  unfold DeltaCodec.blob
  rw [List.map_append, frames_append]

/-- Deltas numbered without a gap after a transaction, each with bytes of its own,
    which decode to it again and whose length fits the prefix of a frame. -/
structure History (c : DeltaCodec) (genesis : Nat) (ds : List Delta) : Prop where
  tids : ds.map Delta.tid = List.range' (genesis + 1) ds.length
  carries : ∀ d ∈ ds, c.Carries d

namespace History

variable {genesis : Nat} {ds ds' : List Delta}

theorem nil : History c genesis [] := ⟨rfl, fun _ h => absurd h List.not_mem_nil⟩

theorem numbered (h : History c genesis ds) : Numbered genesis ds := h.tids

/-- The start of a history is one. -/
theorem left (h : History c genesis (ds ++ ds')) : History c genesis ds :=
  ⟨h.numbered.left, fun d hd => h.carries d (List.mem_append_left ds' hd)⟩

/-- A history goes on with the next transaction. -/
theorem snoc (h : History c genesis ds) {d : Delta} (htid : d.tid = genesis + ds.length + 1)
    (hd : c.Carries d) : History c genesis (ds ++ [d]) := by
  refine ⟨h.numbered.snoc htid, fun e he => ?_⟩
  rcases List.mem_append.mp he with he | he
  · exact h.carries e he
  · rw [List.mem_singleton.mp he]
    exact hd

/-- The deltas up to a transaction are those in front of it. -/
theorem filter (h : History c genesis (ds ++ ds')) :
    (ds ++ ds').filter (fun d => d.tid ≤ genesis + ds.length) = ds := h.numbered.filter

/-- The tids of a history ascend. -/
theorem ascending (h : History c genesis ds) : ds.Pairwise fun d e => d.tid < e.tid := by
  have hrange : (ds.map Delta.tid).Pairwise (· < ·) := by
    rw [h.tids]
    exact List.pairwise_lt_range'
  exact List.pairwise_map.mp hrange

end History

namespace Segment

/-- The counters of a segment are those of its deltas: their bytes, the first
    transaction and the last. A segment with nothing in it has zeros there. -/
structure Counts (c : DeltaCodec) (seg : Segment) (ds : List Delta) : Prop where
  nbytes : seg.nbytes = (c.blob ds).length
  firstTid : seg.firstTid = (ds.head?.map Delta.tid).getD 0
  lastTid : seg.lastTid = (ds.getLast?.map Delta.tid).getD 0

/-- A segment holds its deltas: there are some, and its file starts with their
    bytes, in the sense of `P`. -/
structure Holds (c : DeltaCodec) (P : Nat → Bytes → Prop) (seg : Segment) (ds : List Delta) :
    Prop where
  counts : seg.Counts c ds
  filled : ds ≠ []
  bytes : P seg.number (c.blob ds)

variable {P Q : Nat → Bytes → Prop} {seg : Segment} {ds : List Delta}

theorem Holds.mono (h : seg.Holds c P ds) (hPQ : P seg.number (c.blob ds) → Q seg.number (c.blob ds)) :
    seg.Holds c Q ds :=
  ⟨h.counts, h.filled, hPQ h.bytes⟩

/-- Bytes are decoded to the deltas they came from. -/
theorem mapM_decoded : ∀ {ds : List Delta}, (∀ d ∈ ds, c.Carries d) →
    (ds.map c.encode).mapM (DeltaLog.decoded c) = .ok ds := by
  intro ds
  induction ds with
  | nil => exact fun _ => rfl
  | cons d ds ih =>
      intro h
      have hone : DeltaLog.decoded c (c.encode d) = .ok d := by
        rw [DeltaLog.decoded, (h d List.mem_cons_self).1]
        rfl
      rw [List.map_cons, List.mapM_cons, hone, ih fun e he => h e (List.mem_cons_of_mem d he)]
      rfl

/-- A segment is read back, whatever its file holds behind the valid bytes. -/
theorem Holds.iter (h : seg.Holds c data.Shows ds) (hds : ∀ d ∈ ds, c.Carries d) :
    DeltaLog.iterSegment c data seg = .ok ds := by
  rcases h.bytes with ⟨f, hf, after, hbytes⟩
  have hshort : ∀ raw ∈ ds.map c.encode, raw.length < 256 ^ prefixSize := by
    intro raw hraw
    rcases List.mem_map.mp hraw with ⟨d, hd, rfl⟩
    exact (hds d hd).2
  have hread := readFrames_frames (ds.map c.encode) after hshort _ (Nat.le_refl _)
  unfold DeltaLog.iterSegment
  rw [hf]
  dsimp only
  rw [← hbytes, h.counts.nbytes, DeltaCodec.blob, hread]
  exact mapM_decoded hds

/-- The last transaction of a segment is the highest. -/
theorem Counts.le_lastTid (h : seg.Counts c ds) (hasc : ds.Pairwise fun d e => d.tid < e.tid) :
    ∀ d ∈ ds, d.tid ≤ seg.lastTid := by
  intro d hd
  rcases List.eq_nil_or_concat ds with rfl | ⟨init, last, rfl⟩
  · exact absurd hd List.not_mem_nil
  · have hlast : seg.lastTid = last.tid := by
      rw [h.lastTid, List.concat_eq_append, List.getLast?_append]
      rfl
    rw [List.concat_eq_append] at hd hasc
    rw [hlast]
    rcases List.mem_append.mp hd with hd | hd
    · exact Nat.le_of_lt ((List.pairwise_append.mp hasc).2.2 d hd last List.mem_cons_self)
    · rw [List.mem_singleton.mp hd]

end Segment

/-- A manifest names its deltas: they are those of its segments, in order, and
    its files are numbered. -/
structure Named (c : DeltaCodec) (P : Nat → Bytes → Prop) (m : LogManifest) (ds : List Delta) :
    Prop where
  format : m.format = logFormat
  version : m.version = logVersion
  contract : m.contract = contractVersion
  stored : ∃ dss, List.Forall₂ (Segment.Holds c P) m.segments dss ∧ dss.flatten = ds
  ordered : (m.segments.map Segment.number).Pairwise (· < ·)
  below : ∀ seg ∈ m.segments, seg.number < m.nextSegment
  watermark : m.watermark = m.genesisTid + ds.length

/-- A log whose files hold the deltas `kept` and whose buffer holds `rest`. In
    between there may be one segment that a failed flush has rolled, which no
    manifest counts yet. -/
structure Logged (c : DeltaCodec) (P : Nat → Bytes → Prop) (w : LogWorld) (kept rest : List Delta) :
    Prop where
  named : Named c P w.disk.committed kept
  buffer : w.log.buffer = rest.map fun d => (d.tid, c.encode d)
  /-- A flush that failed has rolled already. -/
  rolled : ∃ extra, w.log.segments = w.disk.committed.segments ++ extra ∧
    w.log.nextSegment = w.disk.committed.nextSegment + extra.length ∧
    (extra = [] ∨ extra = [{ number := w.disk.committed.nextSegment }])
  watermark : w.log.watermark = w.disk.committed.watermark
  applied : w.log.applied = w.log.watermark + rest.length
  genesisTid : w.log.genesisTid = w.disk.committed.genesisTid
  genesisTypes : w.log.genesisTypes = w.disk.committed.genesisTypes
  /-- There are no other files. -/
  tracked : ∀ n, w.disk.data n ≠ none → ∃ seg ∈ w.log.segments, seg.number = n

variable {P Q : Nat → Bytes → Prop} {m : LogManifest} {ds kept rest : List Delta}

theorem forall₂_holds_mono {segs : List Segment} {dss : List (List Delta)}
    (h : List.Forall₂ (Segment.Holds c P) segs dss)
    (hPQ : ∀ seg ∈ segs, ∀ ds, seg.Holds c P ds → Q seg.number (c.blob ds)) :
    List.Forall₂ (Segment.Holds c Q) segs dss := by
  induction h with
  | nil => exact .nil
  | @cons seg ds segs dss hone _ ih =>
      exact .cons (hone.mono fun _ => hPQ seg List.mem_cons_self ds hone)
        (ih fun s hs => hPQ s (List.mem_cons_of_mem seg hs))

theorem Named.mono (h : Named c P m ds)
    (hPQ : ∀ seg ∈ m.segments, ∀ ds, seg.Holds c P ds → Q seg.number (c.blob ds)) :
    Named c Q m ds := by
  rcases h.stored with ⟨dss, hall, hflat⟩
  exact { h with stored := ⟨dss, forall₂_holds_mono hall hPQ, hflat⟩ }

/-- The segments that end behind a transaction are read back to the deltas after
    it, whichever of the others are skipped. -/
theorem mapM_iterSegment (after : Nat) {segs : List Segment} {dss : List (List Delta)}
    (h : List.Forall₂ (Segment.Holds c data.Shows) segs dss)
    (hasc : dss.flatten.Pairwise fun d e => d.tid < e.tid)
    (hcarries : ∀ d ∈ dss.flatten, c.Carries d) : ∃ read,
    (segs.filter fun seg => after < seg.lastTid).mapM (DeltaLog.iterSegment c data) = .ok read ∧
      read.flatten.filter (fun d => after < d.tid) =
        dss.flatten.filter fun d => after < d.tid := by
  induction h with
  | nil => exact ⟨[], rfl, rfl⟩
  | @cons seg ds segs dss hone _ ih =>
      rw [List.flatten_cons, List.pairwise_append] at hasc
      rw [List.flatten_cons] at hcarries
      rcases ih hasc.2.1 (fun d hd => hcarries d (List.mem_append_right ds hd)) with
        ⟨read, hread, hflat⟩
      have hcarried : ∀ d ∈ ds, c.Carries d := fun d hd => hcarries d (List.mem_append_left _ hd)
      by_cases hseg : after < seg.lastTid
      · refine ⟨ds :: read, ?_, ?_⟩
        · rw [List.filter_cons_of_pos (by exact decide_eq_true hseg), List.mapM_cons,
            hone.iter hcarried, hread]
          rfl
        · rw [List.flatten_cons, List.flatten_cons, List.filter_append, List.filter_append, hflat]
      · -- A skipped segment has nothing after the transaction.
        refine ⟨read, ?_, ?_⟩
        · rw [List.filter_cons_of_neg (by simpa using hseg), hread]
        · have hnone : ds.filter (fun d => after < d.tid) = [] := by
            rw [List.filter_eq_nil_iff]
            intro d hd
            have hle := hone.counts.le_lastTid hasc.1 d hd
            rw [decide_eq_true_eq]
            omega
          rw [List.flatten_cons, List.filter_append, hnone, hflat]
          rfl

/-- A sound log replays its deltas. -/
theorem Logged.replay {w : LogWorld} {genesis : Nat} (h : Logged c w.disk.data.Shows w kept rest)
    (hist : History c genesis (kept ++ rest)) (after : Nat) :
    DeltaLog.replay c after w = .ok ((kept ++ rest).filter fun d => after < d.tid) := by
  rcases h.named.stored with ⟨dss, hall, hflat⟩
  have hcarries : ∀ d ∈ dss.flatten, c.Carries d := by
    rw [hflat]
    exact hist.left.carries
  rcases mapM_iterSegment after hall (by rw [hflat]; exact hist.left.ascending) hcarries with
    ⟨read, hread, hsame⟩
  -- A segment that was rolled to and never filled ends at zero.
  have hsegs : (w.log.segments.filter fun seg => after < seg.lastTid) =
      w.disk.committed.segments.filter fun seg => after < seg.lastTid := by
    rcases h.rolled with ⟨extra, hsplit, -, rfl | rfl⟩
    · rw [hsplit, List.append_nil]
    · rw [hsplit, List.filter_append]
      simp
  have hbuffer : (w.log.buffer.filter fun e => after < e.1).mapM
      (fun e => DeltaLog.decoded c e.2) = .ok (rest.filter fun d => after < d.tid) := by
    have hmap : (w.log.buffer.filter fun e => after < e.1) =
        (rest.filter fun d => after < d.tid).map fun d => (d.tid, c.encode d) := by
      rw [h.buffer, List.filter_map]
      rfl
    have hcarried : ∀ d ∈ rest.filter fun d => after < d.tid, c.Carries d := fun d hd =>
      hist.carries d (List.mem_append_right kept (List.mem_of_mem_filter hd))
    have hdecoded := Segment.mapM_decoded hcarried
    rw [hmap, List.mapM_map]
    rw [List.mapM_map] at hdecoded
    exact hdecoded
  unfold DeltaLog.replay
  rw [hsegs, hread, hbuffer]
  change Except.ok _ = Except.ok _
  rw [hsame, hflat, List.filter_append]

end DataCrystal
