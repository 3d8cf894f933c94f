import DataCrystal.Coherent

/-!
# The Phases of a Commit

What the phases of a commit do, taken apart at the points where they can stop.
A commit ends in one of three ways: before the batch is captured, with the batch
refused by storage, or with the batch stored.

`Captured` names the states a successful first phase goes through: `s₁` after
discovery, the indexes `m` after the checks, and `t` after encoding. Encoding
hands out ids and adds shapes and changes nothing else.

## Main definitions

* `Encodes`: The steps of encoding.
* `EncodedAs`: The payload of an entity.
* `Captured`: A successful first phase.
* `Ends`: The ways a commit can end.

## Theorems

* `encodePending_spec`: The records of a batch are the pending entities.
* `p1Capture_ok`: What a first phase that captured a batch has done.
* `commit_cases`: The three ways a commit ends.
-/

namespace DataCrystal

namespace Store

/-- The steps of encoding. -/
inductive Encodes (types : Types) (s : Store) : Store → Prop
  | blobOid : Encodes types s { s with alloc := { s.alloc with nextOid := s.alloc.nextOid + 1 } }
  | shape (c : String) : Encodes types s (s.addShape c (types.info c).fieldNames)

/-- Encoding hands out ids and adds shapes. It takes no transaction id, so a value
    that cannot be encoded leaves the sequence without a gap. -/
def EncodesTo (s t : Store) : Prop :=
  ∃ a rows, t = { s with alloc := a, typeRows := s.typeRows ++ rows } ∧
    s.alloc.nextOid ≤ a.nextOid ∧ s.alloc.nextCid ≤ a.nextCid ∧ a.nextTid = s.alloc.nextTid

variable {types : Types} {p : Principal} {s t : Store}

theorem encodesTo_refl (s : Store) : EncodesTo s s :=
  ⟨s.alloc, [], by rw [List.append_nil], le_rfl, le_rfl, rfl⟩

theorem encodes_encodesTo (h : Relation.ReflTransGen (Encodes types) s t) : EncodesTo s t := by
  induction h with
  | refl => exact encodesTo_refl s
  | tail _ hstep ih =>
      rcases ih with ⟨a, rows, rfl, ho, hc, ht⟩
      cases hstep with
      | blobOid => exact ⟨_, rows, rfl, Nat.le_succ_of_le ho, hc, ht⟩
      | shape c =>
          exact ⟨{ a with nextCid := a.nextCid + 1 },
            rows ++ [(a.nextCid, c, (types.info c).fieldNames)], by simp [addShape], ho,
            Nat.le_succ_of_le hc, ht⟩

theorem moves_cidFor (c : String) : Moves (Encodes types) (cidFor types c) := by
  refine moves_bind moves_get fun s => ?_
  dsimp only
  split
  · exact moves_pure _
  · exact moves_bind (moves_modify fun s => .shape c) fun _ => moves_pure _

theorem moves_encodeField (o : Nat) (spec : FieldSpec) (out : EncodedBatch) :
    Moves (Encodes types) (encodeField o spec out) := by
  refine moves_bind moves_get fun s => moves_ite ?_ ?_
  · split
    · exact moves_bind moves_get fun s => moves_bind (moves_modify fun _ => .blobOid) fun _ =>
        moves_bind (moves_ofExcept _) fun _ => moves_pure _
    · exact moves_bind (moves_ofExcept _) fun _ => moves_pure _
  · exact moves_bind (moves_ofExcept _) fun _ => moves_pure _

theorem moves_encodeFields (o : Nat) (specs : List FieldSpec) :
    ∀ out, Moves (Encodes types) (encodeFields o specs out) := by
  induction specs with
  | nil => exact fun out => moves_pure _
  | cons spec specs ih =>
      exact fun out => moves_bind (moves_encodeField o spec out) fun r =>
        moves_bind (ih r.2) fun _ => moves_pure _

theorem moves_encodePending (entries : List (Nat × Nat)) :
    Moves (Encodes types) (encodePending types entries) := by
  refine moves_foldlM (fun out e => moves_bind moves_get fun s => ?_) entries ({} : EncodedBatch)
  exact moves_bind (moves_cidFor _) fun cid =>
    moves_bind (moves_encodeFields _ _ _) fun _ => moves_pure _

section EncodeSpec

/-- The payload value of one field: what the codec makes of it, or the
    descriptor of a blob. -/
def FieldEncodedAs (s : Store) (o : Nat) (spec : FieldSpec) (w : Val Token) : Prop :=
  if spec.blob then w = .none ∨ ∃ oid content, w = .leaf (.blob oid content)
  else ((s.heap.get o).field spec.name).encode s.oidForEncode = .ok w

/-- The payload of an entity. -/
def EncodedAs (s : Store) (o : Nat) : List FieldSpec → List (Val Token) → Prop :=
  List.Forall₂ (s.FieldEncodedAs o)

/-- The tokens of references depend on the objects only. -/
theorem oidForEncode_congr (h : t.heap = s.heap) : t.oidForEncode = s.oidForEncode := by
  funext r
  simp only [oidForEncode, h]

/-- Two batches with the same records and shapes. -/
def SameRecords (out out' : EncodedBatch) : Prop :=
  out'.records = out.records ∧ out'.newTypes = out.newTypes

/-- What reading the bytes of a blob field raises. -/
theorem rawBytes_error {v : Val LiveRef} {raw : RawBlob} {err : Err} (hraw : rawBytes v = some raw)
    (h : raw.content = .error err) : err = .sourceRaised ∨ err = .blobSize := by
  unfold rawBytes at hraw
  split at hraw
  · cases hraw
    cases h
  · cases hraw
    unfold hashBlobSource at h
    split at h
    · cases h
      exact Or.inl rfl
    · split at h
      · cases h
        exact Or.inr rfl
      · cases h
  · cases hraw

/-- A batch with some bytes more, under an OID of their own. -/
def withBlob (o : Nat) (f : String) (streamed : Bool) (oid : Nat) (content : List Nat)
    (out : EncodedBatch) : EncodedBatch :=
  { out with
    blobs := out.blobs ++ [(oid, content)]
    streams := if streamed then out.streams ++ [oid] else out.streams
    blobSwaps := out.blobSwaps ++ [(o, f, oid, content)] }

/-- Raw bytes that are stored take the next OID. -/
theorem sinkBlob_ok {o : Nat} {f : String} {raw : RawBlob} {out out' : EncodedBatch}
    {w : Val Token} (h : sinkBlob o f raw out s = .ok (w, out') t) :
    ∃ content, raw.content = .ok content ∧ w = .leaf (.blob s.alloc.nextOid content) ∧
      out' = withBlob o f raw.streamed s.alloc.nextOid content out ∧
      t = { s with alloc := { s.alloc with nextOid := s.alloc.nextOid + 1 } } := by
  rw [sinkBlob, bind_run_ok (get_run s), bind_run_ok (modify_run _ s)] at h
  rcases bind_ok_iff.mp h with ⟨content, s', hcontent, h⟩
  rcases ofExcept_ok_iff.mp hcontent with ⟨hok, rfl⟩
  cases h
  exact ⟨content, hok, rfl, rfl, rfl⟩

theorem encodeField_ok {o : Nat} {spec : FieldSpec} {out out' : EncodedBatch} {w : Val Token}
    (h : encodeField o spec out s = .ok (w, out') t) :
    s.FieldEncodedAs o spec w ∧ SameRecords out out' := by
  rw [encodeField, bind_run_ok (get_run s)] at h
  by_cases hblob : spec.blob = true
  -- Raw bytes are sunk and anything else must be stored already.
  · rw [FieldEncodedAs, if_pos hblob]
    simp only [hblob, if_true] at h
    cases hraw : rawBytes ((s.heap.get o).field spec.name) with
    | some raw =>
        rw [hraw] at h
        rcases sinkBlob_ok h with ⟨content, -, rfl, rfl, -⟩
        exact ⟨Or.inr ⟨_, _, rfl⟩, rfl, rfl⟩
    | none =>
        rw [hraw] at h
        rcases bind_ok_iff.mp h with ⟨v, s', hstored, h⟩
        cases h
        refine ⟨?_, rfl, rfl⟩
        have hok := (ofExcept_ok_iff.mp hstored).1
        unfold storedBlob at hok
        split at hok
        · exact Or.inl (Except.ok.inj hok).symm
        · exact Or.inr ⟨_, _, (Except.ok.inj hok).symm⟩
        · simp at hok
  -- An inline field is the swizzled value.
  · rw [FieldEncodedAs, if_neg hblob]
    simp only [hblob] at h
    rcases bind_ok_iff.mp h with ⟨v, s', hencode, h⟩
    cases h
    exact ⟨(ofExcept_ok_iff.mp hencode).1, rfl, rfl⟩

theorem encodeFields_ok {o : Nat} {specs : List FieldSpec} :
    ∀ {s t : Store} {out out' : EncodedBatch} {ws : List (Val Token)},
      encodeFields o specs out s = .ok (ws, out') t →
      s.EncodedAs o specs ws ∧ SameRecords out out' := by
  induction specs with
  | nil =>
      intro s t out out' ws h
      cases h
      exact ⟨.nil, rfl, rfl⟩
  | cons spec specs ih =>
      intro s t out out' ws h
      rcases bind_ok_iff.mp h with ⟨⟨w, out₁⟩, s₁, hfield, h⟩
      rcases bind_ok_iff.mp h with ⟨⟨vs, out₂⟩, s₂, hfields, h⟩
      cases h
      -- A field hands out ids only, whatever the classes are.
      have hsteps : Relation.ReflTransGen (Encodes fun _ => none) s s₁ :=
        (moves_encodeField o spec out s).of_ok hfield
      rcases encodes_encodesTo hsteps with ⟨a, rows, rfl, _⟩
      rcases encodeField_ok hfield with ⟨hw, hrec, htypes⟩
      rcases ih hfields with ⟨hvs, hrec', htypes'⟩
      exact ⟨.cons hw hvs, hrec'.trans hrec, htypes'.trans htypes⟩

/-- The shape an entity is encoded in is one of its class, with the fields the
    class has now. -/
theorem cidFor_ok {c : String} {cid : Nat}
    (hu : ∀ row ∈ s.typeRows, ∀ row' ∈ s.typeRows, row.1 = row'.1 → row = row')
    (h : cidFor types c s = .ok cid t) :
    (cid, c, (types.info c).fieldNames) ∈ t.typeRows := by
  rw [cidFor, bind_run_ok (get_run s)] at h
  -- The latest row of the class is used again if its fields are the live ones.
  cases hlatest : (s.cidByTypename c).filter fun cid =>
      s.persistedFields cid = (types.info c).fieldNames with
  | none =>
      simp only [hlatest, bind_run_ok (modify_run _ s)] at h
      cases h
      exact List.mem_append_right _ List.mem_cons_self
  | some cid' =>
      simp only [hlatest] at h
      cases h
      rw [Option.filter_eq_some_iff, decide_eq_true_eq] at hlatest
      rcases hlatest with ⟨hlatest, hfields⟩
      rw [cidByTypename, Option.map_eq_some_iff] at hlatest
      rcases hlatest with ⟨row, hrow, rfl⟩
      have hmem : row ∈ s.typeRows := List.mem_reverse.mp (List.mem_of_find?_eq_some hrow)
      have hc : row.2.1 = c := by simpa using List.find?_some hrow
      rw [persistedFields] at hfields
      -- PersistedFields looks the cid up by itself and finds the same row, as cids are unique.
      cases hfind : s.typeRows.find? fun r => r.1 = row.1 with
      | none =>
          rw [List.find?_eq_none] at hfind
          exact absurd (decide_eq_true rfl) (hfind row hmem)
      | some row' =>
          have hcid : row'.1 = row.1 := by simpa using List.find?_some hfind
          rw [hu row' (List.mem_of_find?_eq_some hfind) row hmem hcid] at hfind
          rw [hfind] at hfields
          rw [← hfields, ← hc]
          exact hmem

/-- What the encoded part of a batch says about the pending entities: one record for
    each of them, in their order, under a shape with the fields of its class, which
    is durable or comes with the batch. -/
structure BatchOk (types : Types) (s : Store) (entries : List (Nat × Nat)) (t : Store)
    (out : EncodedBatch) : Prop where
  oids : out.records.map (fun r => r.1) = entries.map (fun e => e.1)
  encoded : ∀ r ∈ out.records, ∃ o, (r.1, o) ∈ entries ∧
    (r.2.1, (s.heap.get o).cls, (types.info (s.heap.get o).cls).fieldNames) ∈ t.typeRows ∧
    s.EncodedAs o (types.info (s.heap.get o).cls).specs r.2.2 ∧
    (r.2.1 ∈ s.durableCids ∨ ∃ row ∈ out.newTypes, row.1 = r.2.1)
  newTypes : ∀ row ∈ out.newTypes, row ∈ t.typeRows

/-- The type rows stay told apart by their ids. -/
def RowsOk (s : Store) : Prop :=
  (∀ row ∈ s.typeRows, ∀ row' ∈ s.typeRows, row.1 = row'.1 → row = row') ∧
    ∀ row ∈ s.typeRows, row.1 < s.alloc.nextCid

theorem encodes_rowsOk (s t : Store) (hstep : Encodes types s t) (h : RowsOk s) : RowsOk t := by
  cases hstep with
  | blobOid => exact h
  | shape c =>
      have hcases : ∀ row ∈ (s.addShape c (types.info c).fieldNames).typeRows,
          row ∈ s.typeRows ∨ row = (s.alloc.nextCid, c, (types.info c).fieldNames) := by
        intro row hrow
        simpa [addShape] using hrow
      constructor
      · intro row hrow row' hrow' heq
        rcases hcases row hrow with hr | rfl <;> rcases hcases row' hrow' with hr' | rfl
        · exact h.1 row hr row' hr' heq
        · exact absurd heq (Nat.ne_of_lt (h.2 row hr))
        · exact absurd heq.symm (Nat.ne_of_lt (h.2 row' hr'))
        · rfl
      · intro row hrow
        rcases hcases row hrow with hr | rfl
        · exact Nat.lt_succ_of_lt (h.2 row hr)
        · exact Nat.lt_succ_self _

theorem noteShape_spec (s : Store) (row : TypeRow) (rows : List TypeRow) :
    (∀ r ∈ s.noteShape row rows, r ∈ rows ∨ r = row) ∧ (∀ r ∈ rows, r ∈ s.noteShape row rows) ∧
      (row.1 ∈ s.durableCids ∨ ∃ r ∈ s.noteShape row rows, r.1 = row.1) := by
  rw [noteShape]
  split
  · rename_i h
    refine ⟨fun r hr => Or.inl hr, fun r hr => hr, ?_⟩
    rw [Bool.or_eq_true, List.contains_iff_mem, List.any_eq_true] at h
    refine h.imp id ?_
    rintro ⟨r, hr, hrow⟩
    exact ⟨r, hr, by simpa using hrow⟩
  · refine ⟨fun r hr => ?_, fun r hr => List.mem_append_left _ hr, Or.inr ⟨row, ?_, rfl⟩⟩
    · simpa using hr
    · simp

theorem encodeEntity_ok {entries : List (Nat × Nat)} {s₀ : Store} {out out' : EncodedBatch}
    {e : Nat × Nat} (hs : EncodesTo s₀ s) (hrows : RowsOk s)
    (hb : BatchOk types s₀ entries s out) (h : encodeEntity types out e s = .ok out' t) :
    BatchOk types s₀ (entries ++ [e]) t out' := by
  rw [encodeEntity, bind_run_ok (get_run s)] at h
  rcases bind_ok_iff.mp h with ⟨cid, s₁, hcid, h⟩
  rcases bind_ok_iff.mp h with ⟨⟨payload, out₁⟩, s₂, hpayload, h⟩
  simp only [pure_run, EStateM.Result.ok.injEq] at h
  rcases h with ⟨rfl, rfl⟩
  have hrow := cidFor_ok hrows.1 hcid
  have hsteps₁ := encodes_encodesTo ((moves_cidFor _ s).of_ok hcid)
  have hfields : Relation.ReflTransGen (Encodes types) s₁ s₂ :=
    (moves_encodeFields _ _ _ s₁).of_ok hpayload
  have hsteps₂ := encodes_encodesTo hfields
  rcases encodeFields_ok hpayload with ⟨henc, hrec, htypes⟩
  -- Encoding adds OIDs and rows to the start, so the rows it found are still there.
  rcases hs with ⟨a₀, rows₀, rfl, _⟩
  rcases hsteps₁ with ⟨a₁, rows₁, rfl, _⟩
  rcases hsteps₂ with ⟨a₂, rows₂, rfl, _⟩
  simp only at hrec htypes hrow henc
  have hshape := noteShape_spec { s₀ with alloc := a₀, typeRows := s₀.typeRows ++ rows₀ }
    (cid, (s₀.heap.get e.2).cls, (types.info (s₀.heap.get e.2).cls).fieldNames) out.newTypes
  refine ⟨?_, fun r hr => ?_, fun row hr => ?_⟩
  -- The OIDs in order.
  · simp only [List.map_append, hrec, hb.oids, List.map_cons, List.map_nil]
  -- Every record is of a pending entity and has a row, which is durable or new.
  · rw [List.mem_append, hrec, List.mem_singleton] at hr
    rcases hr with hr | rfl
    · rcases hb.encoded r hr with ⟨o, ho, hor, hoe, hod⟩
      refine ⟨o, List.mem_append_left _ ho,
        List.mem_append_left _ (List.mem_append_left _ hor), hoe, hod.imp id ?_⟩
      rintro ⟨row, hrow', heq⟩
      exact ⟨row, htypes ▸ hshape.2.1 row hrow', heq⟩
    · refine ⟨e.2, List.mem_append_right _ List.mem_cons_self, List.mem_append_left _ hrow,
        henc, hshape.2.2.imp id ?_⟩
      rintro ⟨row, hrow', heq⟩
      exact ⟨row, htypes ▸ hrow', heq⟩
  -- Every new row is known.
  · rw [htypes] at hr
    rcases hshape.1 row hr with hr | rfl
    · exact List.mem_append_left _ (List.mem_append_left _ (hb.newTypes row hr))
    · exact List.mem_append_left _ hrow

/-- The records of a batch are the pending entities, each in a shape of its
    class. -/
theorem encodePending_spec {entries : List (Nat × Nat)} {out : EncodedBatch} (hrows : RowsOk s)
    (h : encodePending types entries s = .ok out t) : BatchOk types s entries t out := by
  have hloop : ∀ (rest before : List (Nat × Nat)) (u : Store) (out₀ : EncodedBatch),
      EncodesTo s u → RowsOk u → BatchOk types s before u out₀ →
      rest.foldlM (encodeEntity types) out₀ u = .ok out t →
      BatchOk types s (before ++ rest) t out := by
    -- By induction on what is left; what was encoded before is the prefix.
    intro rest
    induction rest with
    | nil =>
        intro before u out₀ _ _ hb hrun
        cases hrun
        rw [List.append_nil]
        exact hb
    | cons e rest ih =>
        intro before u out₀ hto hu hb hrun
        rcases bind_ok_iff.mp hrun with ⟨out₁, u₁, hone, hrest⟩
        have hsteps : Relation.ReflTransGen (Encodes types) u u₁ :=
          (moves_bind moves_get (fun s => moves_bind (moves_cidFor _) fun cid =>
            moves_bind (moves_encodeFields _ _ _) fun _ => moves_pure _) u).of_ok hone
        -- The steps of the entities compose.
        have hto₁ : EncodesTo s u₁ := by
          rcases hto with ⟨a, rows, rfl, ho, hc, ht⟩
          rcases encodes_encodesTo hsteps with ⟨a', rows', rfl, ho', hc', ht'⟩
          exact ⟨a', rows ++ rows', by simp, ho.trans ho', hc.trans hc', ht'.trans ht⟩
        have hb₁ := encodeEntity_ok hto hu hb hone
        have hfinal := ih (before ++ [e]) u₁ out₁ hto₁
          (reflTransGen_invariant encodes_rowsOk hsteps hu) hb₁ hrest
        rwa [List.append_assoc] at hfinal
  exact hloop entries [] s {} (encodesTo_refl s) hrows
    ⟨rfl, fun r hr => absurd hr List.not_mem_nil, fun r hr => absurd hr List.not_mem_nil⟩ h

/-- Whatever the shapes are, a batch has one record for every pending entity. -/
theorem encodePending_oids {entries : List (Nat × Nat)} {out : EncodedBatch}
    (h : encodePending types entries s = .ok out t) :
    out.records.map (fun r => r.1) = entries.map (fun e => e.1) := by
  have hloop : ∀ (es : List (Nat × Nat)) (u : Store) (out₀ : EncodedBatch),
      es.foldlM (encodeEntity types) out₀ u = .ok out t →
      out.records.map (fun r => r.1) = out₀.records.map (fun r => r.1) ++ es.map fun e => e.1 := by
    intro es
    induction es with
    | nil =>
        intro u out₀ hrun
        cases hrun
        rw [List.map_nil, List.append_nil]
    | cons e es ih =>
        intro u out₀ hrun
        rcases bind_ok_iff.mp hrun with ⟨out₁, u₁, hone, hrest⟩
        have hrec : out₁.records.map (fun r => r.1) = out₀.records.map (fun r => r.1) ++ [e.1] := by
          rw [encodeEntity, bind_run_ok (get_run u)] at hone
          rcases bind_ok_iff.mp hone with ⟨cid, u₂, -, hone⟩
          rcases bind_ok_iff.mp hone with ⟨⟨payload, out₂⟩, u₃, hfields, hone⟩
          cases hone
          rw [List.map_append, (encodeFields_ok hfields).2.1]
          rfl
        rw [ih u₁ out₁ hrest, hrec, List.append_assoc, List.map_cons]
        rfl
  exact hloop entries s {} h

end EncodeSpec

section Phases

/-- A first phase that captured a batch: `s₁` is the store after discovery, `m`
    the indexes after the checks and `t` the store after encoding. -/
structure Captured (types : Types) (p : Principal) (s s₁ : Store) (m : IndexManager)
    (out : EncodedBatch) (t : Store) : Prop where
  discovered : discoverNewGraphs types p s = .ok () s₁
  busy : (s₁.pending.entries.isEmpty && s₁.deleted.entries.isEmpty) = false
  unique : IndexManager.checkUnique types s₁.backend s₁.lineageFor (s₁.indexEntries types)
    s₁.deleted.keys s₁.index = .ok () m
  temporal : ∃ firsts, IndexManager.checkSortedTemporal types m (s₁.indexEntries types) = .ok firsts
  gate : s₁.checkWriteGate types p = .ok ()
  encoded : encodePending types s₁.pending.entries { s₁ with index := m } = .ok out t

variable {s₁ : Store} {m : IndexManager} {out : EncodedBatch}

theorem Captured.grown (h : Captured types p s s₁ m out t) :
    Relation.ReflTransGen (Grow types p) s s₁ := (moves_discoverNewGraphs s).of_ok h.discovered

theorem Captured.ensured (h : Captured types p s s₁ m out t) :
    Relation.ReflTransGen (Ensures types s₁.backend s₁.lineageFor) s₁.index m :=
  (moves_checkUnique _ _ s₁.index).of_ok h.unique

theorem Captured.encodes (h : Captured types p s s₁ m out t) :
    Relation.ReflTransGen (Encodes types) { s₁ with index := m } t :=
  (moves_encodePending _ _).of_ok h.encoded

/-- The checks change the indexes only. -/
theorem validateBeforeTid_ok {u : Unit} (h : validateBeforeTid types p s = .ok u t) :
    ∃ m firsts, t = { s with index := m } ∧
      IndexManager.checkUnique types s.backend s.lineageFor (s.indexEntries types) s.deleted.keys
        s.index = .ok () m ∧
      IndexManager.checkSortedTemporal types m (s.indexEntries types) = .ok firsts ∧
      s.checkWriteGate types p = .ok () := by
  rw [validateBeforeTid, bind_run_ok (get_run s)] at h
  rcases bind_ok_iff.mp h with ⟨_, s₁, hindex, h⟩
  rcases zoom_ok_iff.mp hindex with ⟨m, hunique, rfl⟩
  rw [bind_run_ok (get_run _)] at h
  rcases bind_ok_iff.mp h with ⟨firsts, s₂, hcheck, h⟩
  rcases ofExcept_ok_iff.mp hcheck with ⟨htemporal, rfl⟩
  rcases ofExcept_ok_iff.mp h with ⟨hgate, rfl⟩
  exact ⟨m, firsts, rfl, hunique, htemporal, hgate⟩

theorem moves_validateBeforeTid : Moves (Calm types) (validateBeforeTid types p) := by
  refine moves_get_bind fun s => movesAt_bind (movesAt_onIndex (moves_checkUnique _ _)) ?_
  intro _ t _
  exact moves_bind moves_get (fun t => moves_bind (moves_ofExcept _) fun _ => moves_ofExcept _) t

/-- What a first phase that returned has done: nothing was buffered, or a batch
    was captured. -/
theorem p1Capture_ok {r : Option Capture} {u : Store} (h : p1Capture types p s = .ok r u) :
    (r = none ∧ discoverNewGraphs types p s = .ok () u) ∨
      ∃ s₁ m out t, Captured types p s s₁ m out t ∧
        r = some (t.captureOf types (s₁.refEntries types) out) ∧ u = t.settle types := by
  rcases bind_ok_iff.mp h with ⟨_, s₁, hdiscover, h⟩
  rw [bind_run_ok (get_run s₁)] at h
  split at h
  · cases h
    exact Or.inl ⟨rfl, hdiscover⟩
  · rename_i hbusy
    rcases bind_ok_iff.mp h with ⟨_, s₂, hvalid, h⟩
    rcases validateBeforeTid_ok hvalid with ⟨m, firsts, rfl, hunique, htemporal, hgate⟩
    rcases bind_ok_iff.mp h with ⟨out, t, hencode, h⟩
    rw [bind_run_ok (get_run t), bind_run_ok (modify_run _ t)] at h
    cases h
    exact Or.inr ⟨s₁, m, out, t, ⟨hdiscover, by simpa using hbusy, hunique, ⟨firsts, htemporal⟩,
      hgate, hencode⟩, rfl, rfl⟩

/-- The steps of a first phase that did not capture a batch: those of discovery and
    of the checks, and those of the encoding up to where it raised. -/
def Prepares (types : Types) (p : Principal) (s t : Store) : Prop :=
  Edit types p s t ∨ Encodes types s t

/-- Two stores with the same storage, indexes, shapes and counters, but for OIDs.
    Discovery takes OIDs and nothing else of this, so a commit begins with what the
    store had. -/
structure SameCore (s t : Store) : Prop where
  index : t.index = s.index
  backend : t.backend = s.backend
  typeRows : t.typeRows = s.typeRows
  durableCids : t.durableCids = s.durableCids
  nextTid : t.alloc.nextTid = s.alloc.nextTid
  lastTid : t.lastTid = s.lastTid

/-- A step of an operation makes an index, or leaves the core alone. -/
theorem edit_kinds (h : Edit types p s t) : SameCore s t ∨
    (∃ m, Ensures types s.backend s.lineageFor s.index m ∧ t = { s with index := m }) ∨
    t = { s with index := s.index.ensureReverse s.backend (s.typeRows.map Prod.fst) } := by
  cases h with
  | grow hg => cases hg <;> exact Or.inl ⟨rfl, rfl, rfl, rfl, rfl, rfl⟩
  | load hl =>
      cases hl with
      | shell => exact Or.inl ⟨rfl, rfl, rfl, rfl, rfl, rfl⟩
      | fill => exact Or.inl ⟨rfl, rfl, rfl, rfl, rfl, rfl⟩
      | unregister o =>
          unfold unregister
          split <;> exact Or.inl ⟨rfl, rfl, rfl, rfl, rfl, rfl⟩
  | ensures hm => exact Or.inr (Or.inl ⟨_, hm, rfl⟩)
  | reverse => exact Or.inr (Or.inr rfl)
  | firstWrite o hstate =>
      unfold onFirstWrite
      split <;> exact Or.inl ⟨rfl, rfl, rfl, rfl, rfl, rfl⟩
  | deleteHolder oid c f key ci hci hheld hstate hroot =>
      cases hr : s.registry.get? oid <;> exact Or.inl ⟨rfl, rfl, rfl, rfl, rfl, rfl⟩
  | _ => exact Or.inl ⟨rfl, rfl, rfl, rfl, rfl, rfl⟩

/-- A step of a first phase makes an index, starts a shape, or leaves all that
    alone. -/
theorem prepares_kinds (h : Prepares types p s t) : SameCore s t ∨
    (∃ m, Ensures types s.backend s.lineageFor s.index m ∧ t = { s with index := m }) ∨
    t = { s with index := s.index.ensureReverse s.backend (s.typeRows.map Prod.fst) } ∨
    ∃ c, t = s.addShape c (types.info c).fieldNames := by
  rcases h with he | he
  · rcases edit_kinds he with hsame | hmade | hreverse
    · exact Or.inl hsame
    · exact Or.inr (Or.inl hmade)
    · exact Or.inr (Or.inr (Or.inl hreverse))
  · cases he with
    | blobOid => exact Or.inl ⟨rfl, rfl, rfl, rfl, rfl, rfl⟩
    | shape c => exact Or.inr (Or.inr (Or.inr ⟨c, rfl⟩))

/-- A first phase that raises moves by any relation with room for discovery, for
    calm steps and for encoding. -/
theorem p1Capture_error {M : Store → Store → Prop} (hgrow : Moves M (discoverNewGraphs types p))
    (hcalm : ∀ s t, Calm types s t → M s t) (hencodes : ∀ s t, Encodes types s t → M s t)
    {e : Err} {u : Store} (h : p1Capture types p s = .error e u) :
    Relation.ReflTransGen M s u := by
  have hvalid : Moves M (validateBeforeTid types p) := moves_validateBeforeTid.mono hcalm
  have hencode : ∀ entries, Moves M (encodePending types entries) :=
    fun entries => (moves_encodePending entries).mono hencodes
  rw [p1Capture, bind_run] at h
  -- Each phase that raises leaves the steps of those before it.
  cases hd : discoverNewGraphs types p s with
  | error e' s₁ =>
      simp only [hd] at h
      cases h
      exact (hgrow s).of_error hd
  | ok _ s₁ =>
      simp only [hd, bind_run_ok (get_run s₁)] at h
      refine ((hgrow s).of_ok hd).trans ?_
      split at h
      · cases h
      · rw [bind_run] at h
        cases hv : validateBeforeTid types p s₁ with
        | error e' s₂ =>
            simp only [hv] at h
            cases h
            exact (hvalid s₁).of_error hv
        | ok _ s₂ =>
            simp only [hv] at h
            rw [bind_run] at h
            cases hc : encodePending types s₁.pending.entries s₂ with
            | error e' t =>
                simp only [hc] at h
                cases h
                exact ((hvalid s₁).of_ok hv).trans ((hencode _ s₂).of_error hc)
            | ok out t =>
                simp only [hc, bind_run_ok (get_run t), bind_run_ok (modify_run _ t)] at h
                cases h

/-- The capture a first phase hands on. -/
def captured (types : Types) (s₁ t : Store) (out : EncodedBatch) : Capture :=
  t.captureOf types (s₁.refEntries types) out

/-- The ways a commit can end: before its batch is captured, with the batch
    refused, or with the batch stored and the third phase run as far as it goes. -/
def Ends (types : Types) (p : Principal) (fault : Bool) (s u : Store) : Prop :=
  Relation.ReflTransGen (Prepares types p) s u ∨
    ∃ s₁ m out t, Captured types p s s₁ m out t ∧
      u = if fault then p2Rollback (captured types s₁ t out) (t.settle types)
        else finalState (p3Finalize (captured types s₁ t out)
          (applyBatch (captured types s₁ t out).batch (t.settle types)))

/-- A commit that captures no batch moves by such a relation, too. -/
theorem commit_ends {M : Store → Store → Prop} (hgrow : Moves M (discoverNewGraphs types p))
    (hcalm : ∀ s t, Calm types s t → M s t) (hencodes : ∀ s t, Encodes types s t → M s t)
    (fault : Bool) (s : Store) : Relation.ReflTransGen M s (finalState (commit types p fault s)) ∨
      ∃ s₁ m out t, Captured types p s s₁ m out t ∧ finalState (commit types p fault s) =
        if fault then p2Rollback (captured types s₁ t out) (t.settle types)
        else finalState (p3Finalize (captured types s₁ t out)
          (applyBatch (captured types s₁ t out).batch (t.settle types))) := by
  rw [commit, bind_run]
  cases hp1 : p1Capture types p s with
  | error e u => exact Or.inl (p1Capture_error hgrow hcalm hencodes hp1)
  | ok r u =>
      rcases p1Capture_ok hp1 with ⟨rfl, hd⟩ | ⟨s₁, m, out, t, hcap, rfl, rfl⟩
      · exact Or.inl ((hgrow s).of_ok hd)
      · refine Or.inr ⟨s₁, m, out, t, hcap, ?_⟩
        cases fault with
        | true => rfl
        | false =>
            simp only [Bool.false_eq_true, if_false, bind_run_ok (modify_run _ _)]
            rw [bind_run, captured]
            cases p3Finalize (t.captureOf types (s₁.refEntries types) out)
              (applyBatch (t.captureOf types (s₁.refEntries types) out).batch
                (t.settle types)) <;> rfl

theorem commit_cases (types : Types) (p : Principal) (fault : Bool) (s : Store) :
    Ends types p fault s (finalState (commit types p fault s)) :=
  commit_ends (moves_discoverNewGraphs.mono fun _ _ hg => Or.inl (.grow hg))
    (fun _ _ hq => Or.inl (edit_of_calm hq)) (fun _ _ he => Or.inr he) fault s

end Phases

end Store

end DataCrystal
