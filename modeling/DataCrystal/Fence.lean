import DataCrystal.Invariance
import DataCrystal.Index.Readable

/-!
# The Fences

What the permission checks guarantee about the records of a store.

The write fence: a commit is the only step that changes storage, and every
protected record it overwrites or deletes has passed the gate against the
labels its stored version holds. The gate compares live labels with decoded
ones, so the fence rests on the codec: the label columns of a record decode to
the labels of the entity it was encoded from.

The read fence: a class is filtered by a bitmap made from its indexes, and a
single record by a predicate on its labels. They agree on the labels that read
alike, and accepted commits lead to a label that does not.

## Main definitions

* `Crosses`: What a principal must hold to replace one version of a protected
  record by another.
* `Backend.labelsOf`: The labels a stored record holds.

## Theorems

* `decodeLabels_encoded`: A payload holds the labels of its entity.
* `write_fence`: Every overwritten or deleted protected record was fenced.
* `readableBitmap_agrees_iff`: When the bitmap and the predicate agree.
-/

namespace DataCrystal

open Store

section Codec

variable {f : LiveRef → Except Err Token} {s : Store} {o : Nat}

theorem encode_int {i : ℤ} {w : Val Token} (h : (Val.int i : Val LiveRef).encode f = .ok w) :
    w = .int i := by
  change Val.storable (.scalar (.num .int (.fin i))) = .ok w at h
  rw [Val.storable] at h
  split at h
  · exact (Except.ok.inj h).symm
  · cases h

theorem encode_ints {xs : List ℤ} {w : Val Token}
    (h : (Val.ints xs : Val LiveRef).encode f = .ok w) : w = .ints xs := by
  -- Integers hold no references, so the rewriting changes nothing.
  have hmap : ∀ ys : List ℤ, Val.mapLeaves.mapItems f (ys.map Val.int) =
      (.ok (ys.map Val.int) : Except Err (List (Val Token))) := by
    intro ys
    induction ys with
    | nil => rfl
    | cons y ys ih =>
        rw [List.map_cons, Val.mapLeaves.mapItems, ih]
        rfl
  -- And each of them fits, or the whole list is refused.
  have hstore : ∀ (ys : List ℤ) (zs : List (Val Token)),
      Val.storable.storableItems (ys.map Val.int) = .ok zs → zs = ys.map Val.int := by
    intro ys
    induction ys with
    | nil =>
        intro zs hz
        rw [List.map_nil, Val.storable.storableItems] at hz
        exact (Except.ok.inj hz).symm
    | cons y ys ih =>
        intro zs hz
        rw [List.map_cons, Val.storable.storableItems] at hz
        split at hz
        · cases hz
        · rename_i z hy
          cases htail : Val.storable.storableItems (ys.map (Val.int : ℤ → Val Token)) with
          | error e => simp [htail, Except.map] at hz
          | ok tail =>
              rw [htail] at hz
              rw [← Except.ok.inj hz, ih tail htail]
              have hone : z = .int y := encode_int (f := f) (i := y) (w := z) hy
              rw [hone, List.map_cons]
  have hencode : (Val.ints xs : Val LiveRef).encode f =
      (Val.storable.storableItems (xs.map (Val.int : ℤ → Val Token))).map (.seq .list) := by
    rw [Val.encode, Val.ints, Val.mapLeaves, hmap]
    change Val.storable (.seq .list (xs.map Val.int)) = _
    rw [Val.storable]
  rw [hencode] at h
  cases hitems : Val.storable.storableItems (xs.map (Val.int : ℤ → Val Token)) with
  | error e => simp [hitems, Except.map] at h
  | ok zs =>
      rw [hitems] at h
      rw [← Except.ok.inj h, hstore xs zs hitems]
      rfl

/-- The value under the name of a spec is what the spec's field was encoded as. -/
theorem encodedAs_value {ti : TypeInfo} {payload : List (Val Token)} {spec : FieldSpec}
    (h : s.EncodedAs o ti.specs payload) (hs : spec ∈ ti.specs) :
    s.FieldEncodedAs o spec (persistedValue ti.fieldNames payload spec.name) := by
  have hmem : spec.name ∈ ti.fieldNames := List.mem_map_of_mem hs
  have hi : ti.fieldNames.idxOf spec.name < ti.fieldNames.length := List.idxOf_lt_length_of_mem hmem
  have hlen : ti.fieldNames.length = ti.specs.length := List.length_map _
  have hi' : ti.fieldNames.idxOf spec.name < ti.specs.length := hlen ▸ hi
  have hi'' : ti.fieldNames.idxOf spec.name < payload.length := h.length_eq ▸ hi'
  have hat := h.get hi' hi''
  have hname : (ti.specs[ti.fieldNames.idxOf spec.name]).name = spec.name := by
    have hget : ti.fieldNames[ti.fieldNames.idxOf spec.name] = spec.name := List.getElem_idxOf hi
    simpa only [TypeInfo.fieldNames, List.getElem_map] using hget
  have hspec : ti.specs[ti.fieldNames.idxOf spec.name] = spec :=
    ti.spec_unique (List.getElem_mem hi') hs hname
  rw [persistedValue, List.getD_eq_getElem?_getD, List.getElem?_eq_getElem hi'', Option.getD_some]
  simp only [List.get_eq_getElem, hspec] at hat
  exact hat

/-- The label columns of a payload decode to the labels of its entity. -/
theorem decodeLabels_encoded {ti : TypeInfo} {payload : List (Val Token)}
    (h : s.EncodedAs o ti.specs payload) (hprot : ti.isProtected = true) :
    decodeLabels ti.fieldNames payload = (s.heap.get o).labels := by
  have hall : permFields.all ti.fieldNames.contains = true := by
    rw [List.all_eq_true]
    intro f hf
    rw [List.contains_iff_mem]
    rw [← TypeInfo.permSpecs_names] at hf
    rcases List.mem_map.mp hf with ⟨spec, hspec, rfl⟩
    exact List.mem_map_of_mem (mem_permSpec hprot hspec)
  have hcolumn : ∀ spec ∈ permSpecs, ∀ v, (s.heap.get o).labels.column spec.name = some v →
      v.encode s.oidForEncode = .ok (persistedValue ti.fieldNames payload spec.name) := by
    intro spec hspec v hv
    have hfield := encodedAs_value h (mem_permSpec hprot hspec)
    have hblob : ∀ spec ∈ permSpecs, spec.blob = false := by decide
    rw [FieldEncodedAs, if_neg (by simp [hblob spec hspec]), Entity.field, hv, Option.getD_some]
      at hfield
    exact hfield
  have howner := encode_int (hcolumn permSpecs[0] (by decide) _ rfl)
  have hgroups := encode_ints (hcolumn permSpecs[1] (by decide) _ rfl)
  have hread := encode_int (hcolumn permSpecs[2] (by decide) _ rfl)
  have hwrite := encode_int (hcolumn permSpecs[3] (by decide) _ rfl)
  simp only [permSpecs, List.getElem_cons_zero, List.getElem_cons_succ] at howner hgroups hread hwrite
  rw [decodeLabels, if_pos hall, howner, hgroups, hread, hwrite]
  simp

end Codec

section Gate

variable {types : Types} {p : Principal} {s : Store} {k o : Nat}

/-- What a principal must hold to replace one version of a protected record by
    another: the write floor of the version on disk, standing in every group that is
    added, and authority enough for every floor that changes. The owner stays. -/
structure Crosses (p : Principal) (prior staged : Labels) : Prop where
  floor : prior.writeFloor ≤ authorityTowards p prior.owner prior.groups
  owner : staged.owner = prior.owner
  groups : ∀ g ∈ staged.groups, g ∉ prior.groups → level p g ≠ noStanding
  readFloor : staged.readFloor ≠ prior.readFloor →
    staged.readFloor ≤ authorityTowards p staged.owner staged.groups
  writeFloor : staged.writeFloor ≠ prior.writeFloor →
    staged.writeFloor ≤ authorityTowards p staged.owner staged.groups

/-- The gate looks at every protected entity of the batch and at every
    deletion of a protected record. -/
theorem checkWriteGate_ok (h : s.checkWriteGate types p = .ok ()) (hp : isRoot p = false) :
    (∀ e ∈ s.pending.entries, s.isProtected types e.2 = true → gateRecord p s e = .ok ()) ∧
      ∀ d ∈ s.deleted.entries, (types.info d.2.1).isProtected = true →
        gateDeletion p s d.1 = .ok () := by
  rw [checkWriteGate, if_neg (by simp [hp])] at h
  rcases hrecords : (s.pending.entries.filter fun e => s.isProtected types e.2).forM (fun e =>
      (gateRecord p s e).mapError Err.writeDenied) with e | u
  · simp only [hrecords, bind, Except.bind] at h
    cases h
  · simp only [hrecords, bind, Except.bind] at h
    refine ⟨fun e he hprot => ?_, fun d hd hprot => ?_⟩
    · have hone := (except_forM_ok_iff _).mp hrecords e (List.mem_filter.mpr ⟨he, hprot⟩)
      cases hg : gateRecord p s e with
      | ok u => rfl
      | error d => simp [hg, Except.mapError] at hone
    · exact (except_forM_ok_iff _).mp h d (List.mem_filter.mpr ⟨hd, hprot⟩)

/-- An entity with a prior record crosses the fence from that record's labels. -/
theorem gateRecord_crosses {rec : StoredRecord} (hprior : s.priorRecord k = some rec)
    (h : gateRecord p s (k, o) = .ok ()) :
    Crosses p (s.priorLabels rec) (s.heap.get o).labels := by
  rw [gateRecord] at h
  simp only [hprior, bind, Except.bind] at h
  cases hpersisted : gatePersistedRecord p (s.heap.get o).labels (s.priorLabels rec) with
  | error d => simp [hpersisted] at h
  | ok base =>
      simp only [hpersisted] at h
      rcases (gatePersistedRecord_ok_iff _ _ _ _).mp hpersisted with ⟨hfloor, howner, rfl⟩
      cases hlabels : gateLabelChanges p (s.heap.get o).labels (s.priorLabels rec) with
      | error d => simp [hlabels] at h
      | ok u =>
          rcases (gateLabelChanges_ok_iff _ _ _).mp hlabels with ⟨hgroups, hread, hwrite⟩
          exact ⟨hfloor, howner, hgroups, hread, hwrite⟩

theorem gateDeletion_floor {rec : StoredRecord} (hrec : s.backend.objects.get? k = some rec)
    (h : gateDeletion p s k = .ok ()) : (s.priorLabels rec).writeFloor ≤
      authorityTowards p (s.priorLabels rec).owner (s.priorLabels rec).groups := by
  rw [gateDeletion, hrec] at h
  refine (gateDelete_ok_iff _ _).mp ?_
  cases hg : gateDelete p (s.priorLabels rec) with
  | ok u => rfl
  | error d => simp [hg, Except.mapError] at h

end Gate

/-- The labels a stored record holds. -/
def Backend.labelsOf (b : Backend) (rec : StoredRecord) : Labels :=
  decodeLabels (b.fieldsOf rec.cid) rec.payload

/-- What happens to a protected record in a batch that passed the gate: whoever
    deletes it had the authority its write floor asks for, and whoever overwrites it
    crosses its fence. -/
structure Fenced (p : Principal) (before after : Backend) (k : Nat) (rec : StoredRecord) :
    Prop where
  deleted : after.objects.get? k = none → (before.labelsOf rec).writeFloor ≤
    authorityTowards p (before.labelsOf rec).owner (before.labelsOf rec).groups
  written : ∀ rec', after.objects.get? k = some rec' → rec' ≠ rec →
    Crosses p (before.labelsOf rec) (after.labelsOf rec')

/-- A captured batch has passed the gate. -/
theorem captured_fenced {types : Types} {p : Principal} {kind : Nat → String} {s s₁ t : Store}
    {m : IndexManager} {out : EncodedBatch} (hs : Coherent kind s)
    (hc : Captured types p s s₁ m out t) (hp : isRoot p = false) {k : Nat} {rec : StoredRecord}
    {c : String} (hrec : s.backend.objects.get? k = some rec)
    (hcls : s.backend.typenameOf rec.cid = some c) (hprot : (types.info c).isProtected = true) :
    Fenced p s.backend (t.backend.apply (t.buildBatch out)) k rec := by
  have h₁ := hc.discovered_coherent hs
  have ht := hc.coherent hs
  have hback : t.backend = s.backend := backend_of_prepares hc.prepares
  rcases hc.frame with ⟨a, rows, rfl, _⟩
  have hrec₁ : s₁.backend.objects.get? k = some rec := by
    rw [← hrec]
    exact congrArg (fun b => b.objects.get? k) hback
  -- The record's class is the one of its OID.
  rcases h₁.storage.shape hrec₁ with ⟨hfields, htypename⟩
  have hkind : kind k = c := by
    have hcls₁ : s₁.backend.typenameOf rec.cid = some c := by
      rw [← hcls]
      exact congrArg (fun b => b.typenameOf rec.cid) hback
    exact Option.some.inj (htypename.symm.trans hcls₁)
  have hprior : s₁.priorLabels rec = s.backend.labelsOf rec := by
    rw [priorLabels, hfields]
    exact congrArg (fun b => b.labelsOf rec) hback
  have hgate := checkWriteGate_ok hc.gate hp
  refine ⟨fun hnone => ?_, fun rec' hrec' hne => ?_⟩
  · have hdel := Backend.deleted_of_get?_apply_eq_none hnone (by
      change s₁.backend.objects.get? k ≠ none
      simp [hrec₁])
    rcases (Dict.mem_keys_iff _ _).mp hdel with ⟨⟨c', obj⟩, hd⟩
    have hc' : c' = kind k := (h₁.objects.isDeleted k c' obj hd).1.2
    have hfloor := gateDeletion_floor hrec₁ (hgate.2 (k, c', obj)
      ((Dict.get?_eq_some_iff _ _ _).mp hd) (by rw [hc', hkind]; exact hprot))
    rwa [hprior] at hfloor
  · rcases stored_record ht (hc.batchOk hs) hrec' with ⟨hold, _⟩ | ⟨o, ho, henc, hshape, _⟩
    · exact absurd (Option.some.inj (hold.symm.trans hrec₁)) hne
    · -- the entity was written over the record, so it is of the record's class
      have hlt := (h₁.storage.records k rec hrec₁).2.1
      rcases h₁.pending_object ho with ⟨hoid, ⟨_, hnew⟩ | ⟨hst, _⟩⟩
      · exact absurd hlt (Nat.not_lt.mpr (h₁.objects.isNew k o hnew).2.2)
      have hocls : (s₁.heap.get o).cls = c :=
        ((h₁.objects.settled o k (Or.inr hst) hoid).2).trans hkind
      have hoprot : s₁.isProtected types o = true := by
        rw [isProtected, info, hocls]
        exact hprot
      have hnone : s₁.priorRecord k = some rec := by
        rw [priorRecord, if_neg, hrec₁]
        intro hcontains
        rcases (Dict.mem_keys_iff _ _).mp ((Dict.contains_iff _ _).mp hcontains) with ⟨n, hn⟩
        exact absurd hlt (Nat.not_lt.mpr (h₁.objects.isNew k n hn).2.2)
      have hcross := gateRecord_crosses hnone (hgate.1 (k, o) ho hoprot)
      rw [← hprior, Backend.labelsOf, hshape]
      -- The labels of the entity, as the payload carries them.
      have hlabels := decodeLabels_encoded henc hoprot
      exact hlabels.symm ▸ hcross

/-- Whoever overwrites or deletes a protected record, root apart, had the
    authority its write floor asks for, and left its owner, its floors and its
    groups within what that authority allows. -/
theorem write_fence (types : Types) (events : List Event) (p : Principal) (op : Op)
    (hp : isRoot p = false) {k : Nat} {rec : StoredRecord} {c : String}
    (hrec : ((World.start types).run events).store.backend.objects.get? k = some rec)
    (hcls : ((World.start types).run events).store.backend.typenameOf rec.cid = some c)
    (hprot : (((World.start types).run events).types.info c).isProtected = true) :
    let before := ((World.start types).run events).store.backend
    let after := (((World.start types).run events).step (.act p op)).store.backend
    let prior := before.labelsOf rec
    (after.objects.get? k = none →
      prior.writeFloor ≤ authorityTowards p prior.owner prior.groups) ∧
    ∀ rec', after.objects.get? k = some rec' → rec' ≠ rec → Crosses p prior (after.labelsOf rec') := by
  intro before after prior
  rcases World.run_coherent types events with ⟨kind, hw⟩
  rcases World.step_backend ((World.start types).run events) (.act p op) with
    hsame | ⟨p', s₁, m, out, t, hact, hc, hfinal⟩
  · -- nothing was stored
    have hafter : after.objects.get? k = some rec := by rw [← hrec, ← hsame]
    exact ⟨fun hnone => by simp [hafter] at hnone,
      fun rec' hrec' hne => absurd (Option.some.inj (hrec'.symm.trans hafter)) hne⟩
  · cases hact
    have hafter : after = t.backend.apply (t.buildBatch out) := by
      change (World.step _ _).store.backend = _
      rw [hfinal, backend_finalize]
    have hfenced := captured_fenced hw.store hc hp hrec hcls hprot
    rw [hafter]
    exact ⟨hfenced.deleted, hfenced.written⟩

/-- A process with one protected class. -/
def noteTypes : Types := fun c =>
  if c = "note" then some { dataSpecs := [{ name := "text" }], isProtected := true } else none

/-- The owner of a note, who is an editor in group 7. -/
def noteOwner : Principal := { uid := 5, memberships := Dict.ofList [(7, 100)] }

/-- A note is committed and then shared with group 7. -/
def shareNote : List Event :=
  [.act noteOwner (.construct "note" []), .act noteOwner (.store 0),
    .act noteOwner (.commit false), .act noteOwner (.setLabel 0 (.groups [7]))]

/-- The owner of a note crosses the fence to share it. -/
theorem write_fence_on_note :
    let before := ((World.start noteTypes).run shareNote).store.backend
    let after := (((World.start noteTypes).run shareNote).step
      (.act noteOwner (.commit false))).store.backend
    ∃ rec rec', before.objects.get? oidBase = some rec ∧ after.objects.get? oidBase = some rec' ∧
      rec' ≠ rec ∧ Crosses noteOwner (before.labelsOf rec) (after.labelsOf rec') := by
  intro before after
  have hbefore : (before.objects.get? oidBase).map (fun r => (r.tid, before.typenameOf r.cid)) =
      some (1, some "note") := by decide +kernel
  have hafter : (after.objects.get? oidBase).map (fun r => r.tid) = some 2 := by decide +kernel
  rcases Option.map_eq_some_iff.mp hbefore with ⟨rec, hrec, hrec'⟩
  rcases Option.map_eq_some_iff.mp hafter with ⟨rec', hrec₂, htid⟩
  have hne : rec' ≠ rec := by
    rintro rfl
    have h1 : rec'.tid = 1 := congrArg Prod.fst hrec'
    omega
  refine ⟨rec, rec', hrec, hrec₂, hne, ?_⟩
  exact (write_fence noteTypes shareNote noteOwner (.commit false) (by decide) hrec
    (congrArg Prod.snd hrec') (by decide +kernel)).2 rec' hrec₂ hne

/-- The bitmap of a protected class built from records agrees with the
    predicate precisely when every record's label reads alike for the principal. -/
theorem readableBitmap_agrees_iff (fam : String → Family) {ti : TypeInfo} {ci : ClassIndexes}
    (p : Principal) (lineage : Lineage) (scan : Nat → List StoredRecord) (labels : Nat → Labels)
    (hbuild : buildClassIndexes ti lineage scan = .ok ci) (hprot : ti.isProtected = true)
    (hfam : ∀ f ∈ ti.sortedFields, fam f ≠ .nan) (hnumber : fam "_dc_read_floor" = .number)
    (hnd : ((scannedRows ti lineage scan).map Prod.fst).Nodup)
    (hconf : ∀ e ∈ scannedRows ti lineage scan, Conforms fam ti e.2)
    (hlab : ∀ e ∈ scannedRows ti lineage scan, ∀ f v,
      (labels e.1).column f = some v → e.2 f = v) :
    ∃ bm, readableBitmap p ci = .ok bm ∧
      ((∀ oid ∈ ci.extent, oid ∈ bm.getD ci.extent ↔
          canReadRow p (labels oid).owner (labels oid).groups (labels oid).readFloor = true) ↔
        ∀ oid ∈ ci.extent, ReadsAlike p (labels oid)) := by
  by_cases hroot : isRoot p = true
  · refine ⟨none, by rw [readableBitmap, if_pos hroot], ?_⟩
    have hall : ∀ oid ∈ ci.extent, ReadsAlike p (labels oid) := fun _ _ => Or.inl hroot
    exact ⟨fun _ => hall, fun _ oid hoid =>
      ⟨fun _ => (canReadRow_iff _ _ _ _).mpr (Or.inl hroot), fun _ => hoid⟩⟩
  · have hroot' := Bool.eq_false_of_not_eq_true hroot
    rcases build_spec lineage scan hfam (admits_of_build hbuild) hnd hconf with
      ⟨ci', hbuild', hrep, hs, hb⟩
    rw [hbuild, Except.ok.injEq] at hbuild'
    rw [← hbuild'] at hrep hs hb
    rcases readableBitmap_spec hrep hs hb hprot hnumber (labelledRows_of_columns hprot hlab) p
      hroot' with ⟨bm, hbm, hmem⟩
    refine ⟨some bm, hbm, ?_⟩
    refine forall_congr' fun oid => forall_congr' fun hext => ?_
    rw [Option.getD_some, hmem, and_iff_right ((hrep.extent oid).mp hext)]
    exact readsAlike_iff p (labels oid) hroot'

/-- A protected class with one field of its own. -/
def noteInfo : TypeInfo := { dataSpecs := [{ name := "text" }], isProtected := true }

/-- A record owned by 5, shared with group 7 for all its members to read. -/
def noteRecords : Nat → List StoredRecord
  | 1 => [⟨9, 1, 1, [.scalar (.str "hi"), .int 5, .ints [7], .int 0, .int 500]⟩]
  | _ => []

/-- A member of group 7 reads the record by the bitmap and by the predicate. -/
theorem readableBitmap_agrees_on_note : ∃ ci bm,
    buildClassIndexes noteInfo [(1, "text" :: permFields)] noteRecords = .ok ci ∧
      readableBitmap { uid := 6, memberships := Dict.ofList [(7, 100)] } ci = .ok bm ∧
      (∀ oid ∈ ci.extent, oid ∈ bm.getD ci.extent ↔
        canReadRow { uid := 6, memberships := Dict.ofList [(7, 100)] } 5 [7] 0 = true) ∧
      ∀ oid ∈ ci.extent,
        ReadsAlike { uid := 6, memberships := Dict.ofList [(7, 100)] } ⟨5, [7], 0, 500⟩ := by
  have hlab : ∀ e ∈ scannedRows noteInfo [(1, "text" :: permFields)] noteRecords, ∀ f v,
      Labels.column ⟨5, [7], 0, 500⟩ f = some v → e.2 f = v := by
    intro e he f v hv
    obtain rfl : e = (9, recordRow noteInfo ("text" :: permFields)
        [.scalar (.str "hi"), .int 5, .ints [7], .int 0, .int 500]) := by
      simpa [scannedRows, noteRecords] using he
    unfold Labels.column at hv
    split at hv
    · rw [← Option.some.inj hv]
      rfl
    · rw [← Option.some.inj hv]
      rfl
    · rw [← Option.some.inj hv]
      rfl
    · rw [← Option.some.inj hv]
      rfl
    · simp at hv
  rcases readableBitmap_agrees_iff (fun _ => .number)
    { uid := 6, memberships := Dict.ofList [(7, 100)] } [(1, "text" :: permFields)] noteRecords
    (fun _ => ⟨5, [7], 0, 500⟩) rfl rfl (by decide) rfl (by decide) (by decide) hlab with
    ⟨bm, hbm, hiff⟩
  -- The read floor is above the level of a group that is not held.
  have halike : ReadsAlike { uid := 6, memberships := Dict.ofList [(7, 100)] } ⟨5, [7], 0, 500⟩ :=
    Or.inr (Or.inr (Or.inr (Or.inl (by decide))))
  exact ⟨_, bm, rfl, hbm, hiff.mpr fun _ _ => halike, fun _ _ => halike⟩

/-- The owner lowers the read floor of the shared note below the ladder. -/
def openNote : List Event :=
  shareNote ++ [.act noteOwner (.commit false), .act noteOwner (.setLabel 0 (.readFloor (-1))),
    .act noteOwner (.commit false)]

/-- A principal without any membership. -/
def stranger : Principal := { uid := 6, memberships := Dict.empty }

/-- The stranger may read the note by the predicate, and the bitmap misses it. -/
theorem readableBitmap_misses_open_note :
    let b := ((World.start noteTypes).run openNote).store.backend
    ∃ ci bm rec, buildClassIndexes (noteTypes.info "note") (b.lineageOf "note") b.scanType =
        .ok ci ∧ readableBitmap stranger ci = .ok (some bm) ∧ oidBase ∈ ci.extent ∧
      b.objects.get? oidBase = some rec ∧
      canReadRow stranger (b.labelsOf rec).owner (b.labelsOf rec).groups
        (b.labelsOf rec).readFloor = true ∧ oidBase ∉ bm := by
  intro b
  have hbitmap : ((buildClassIndexes (noteTypes.info "note") (b.lineageOf "note")
      b.scanType).toOption.bind fun ci => (readableBitmap stranger ci).toOption.bind fun bm =>
        bm.map fun bm => (decide (oidBase ∈ ci.extent), decide (oidBase ∈ bm))) =
      some (true, false) := by decide +kernel
  have hlabels : (b.objects.get? oidBase).map b.labelsOf = some ⟨5, [7], -1, 0⟩ := by
    decide +kernel
  rcases Option.bind_eq_some_iff.mp hbitmap with ⟨ci, hci, hbitmap⟩
  rcases Option.bind_eq_some_iff.mp hbitmap with ⟨r, hr, hbitmap⟩
  rcases Option.map_eq_some_iff.mp hbitmap with ⟨bm, rfl, hmem⟩
  rcases Option.map_eq_some_iff.mp hlabels with ⟨rec, hrec, hl⟩
  have hbuild : buildClassIndexes (noteTypes.info "note") (b.lineageOf "note") b.scanType =
      .ok ci := by
    cases hb : buildClassIndexes (noteTypes.info "note") (b.lineageOf "note") b.scanType with
    | ok ci' =>
        rw [hb] at hci
        rw [Option.some.inj hci]
    | error e => simp [hb, Except.toOption] at hci
  have hread : readableBitmap stranger ci = .ok (some bm) := by
    cases hb : readableBitmap stranger ci with
    | ok bm' =>
        rw [hb] at hr
        rw [Option.some.inj hr]
    | error e => simp [hb, Except.toOption] at hr
  refine ⟨ci, bm, rec, hbuild, hread, ?_, hrec, ?_, ?_⟩
  · exact of_decide_eq_true (congrArg Prod.fst hmem)
  · rw [hl]
    decide
  · exact of_decide_eq_false (congrArg Prod.snd hmem)

end DataCrystal
