import DataCrystal.FullText

/-!
# Indexed As Rebuilt

An index that has applied every delta from the start is meant to be the one a
snapshot would bootstrap. The two read a record differently. The attached index
reads what the payload holds, whether or not the class still has the field, and
takes a default from the class of the process that applies the delta. The snapshot
reads the fields of the live class, and takes a default from that.

So they differ where a mapped field has left the class and the record has a text in
it, and where a mapped field is younger than the record and its default is a text.
And there is no rebuilt index at all if the snapshot cannot list a mapped class.

## Main definitions

* `storedDoc`, `viewDoc`: The document of a record, in either index.
* `Holds`: The documents of an index are those of some records.
* `RebuildsAlike`: When the two indexes agree.

## Theorems

* `replay_served`: What an attached index holds.
* `bootstrap_ok_iff`, `bootstrap_spec`: What a bootstrapped index holds.
* `docs_rebuilt_iff`: When they are the same.
-/

namespace DataCrystal

namespace Applier

variable {a a' : Applier} {d : Delta}

/-- An operation that is applied names a shape that was seen, and teaches none. -/
theorem applyOp_shape {op : DeltaOp} (h : applyOp op a = .ok () a') :
    a'.types = a.types ∧ a.types.contains op.cid = true := by
  unfold applyOp at h
  rw [bind_run_ok (get_run a)] at h
  split at h
  · cases h
  · rename_i hcid
    rw [Bool.not_eq_true', Bool.not_eq_false] at hcid
    by_cases hprior : op.prior ≠ a.objects.get? op.oid
    · rw [if_pos hprior] at h
      cases h
    · rw [if_neg hprior] at h
      cases hkind : op.kind with
      | upsert =>
          cases hpayload : op.payload with
          | none =>
              simp only [hkind, hpayload] at h
              cases h
          | some payload =>
              simp only [hkind, hpayload] at h
              cases h
              exact ⟨rfl, hcid⟩
      | delete =>
          cases hheld : a.objects.get? op.oid with
          | none =>
              simp only [hkind, hheld] at h
              cases h
          | some payload =>
              simp only [hkind, hheld] at h
              cases h
              exact ⟨rfl, hcid⟩
      | other =>
          rw [hkind] at h
          cases h

theorem forM_shapes (ops : List DeltaOp) : ∀ a : Applier, ops.forM applyOp a = .ok () a' →
    a'.types = a.types ∧ ∀ op ∈ ops, a.types.contains op.cid = true := by
  induction ops with
  | nil =>
      intro a h
      cases h
      exact ⟨rfl, fun op hop => absurd hop List.not_mem_nil⟩
  | cons op ops ih =>
      intro a h
      rw [forM_cons_run] at h
      rcases bind_ok_iff.mp h with ⟨_, a₁, hone, hrest⟩
      rcases applyOp_shape hone with ⟨htypes, hcid⟩
      rcases ih a₁ hrest with ⟨htypes', hcids⟩
      refine ⟨htypes'.trans htypes, fun op' hop => ?_⟩
      rcases List.mem_cons.mp hop with rfl | hop
      · exact hcid
      · rw [← htypes]
        exact hcids op' hop

/-- A consumer has learnt the shapes of a delta it has applied, and each of the
    delta's operations names one it knows. -/
theorem Next.shapes (h : Next a d a') : a'.types = (learn d.types a).types ∧
    ∀ op ∈ d.ops, a'.types.contains op.cid = true := by
  rcases (apply_ok h.applied).2.2 with ⟨t, hrun, rfl⟩
  rcases forM_shapes d.ops _ hrun with ⟨htypes, hcids⟩
  refine ⟨htypes, fun op hop => ?_⟩
  change t.types.contains op.cid = true
  rw [htypes]
  exact hcids op hop

/-- The shapes a consumer knew are as they were. -/
theorem Next.types_kept (h : Next a d a') {cid : Nat} (hcid : a.types.contains cid = true) :
    a'.types.get? cid = a.types.get? cid := by
  rw [h.shapes.1, learn]
  refine Dict.get?_foldl_set_of_not_mem d.types cid a.types fun hmem => ?_
  rcases List.mem_map.mp hmem with ⟨row, hrow, rfl⟩
  rw [Dict.contains, h.unseen row hrow] at hcid
  cases hcid

end Applier

namespace FullTextIndex

variable {an : Analyzer} {m : FullTextMap} {under : Nat → Types} {types : Types}
  {idx : FullTextIndex} {objects : Dict Nat StoredRecord} {c : String} {rec : StoredRecord}

/-- The document an attached index has of a record. -/
def storedDoc (an : Analyzer) (m : FullTextMap) (lineage : Dict Nat (String × List String))
    (types : Types) (rec : StoredRecord) : Option DocRow :=
  (lineage.get? rec.cid).bind fun shape => (m.get? shape.1).bind fun wanted =>
    doc an m shape.1 (textsOf wanted (proseValue types shape.1 shape.2 rec.payload))

/-- The documents of an index are those of some records, each read in the process
    that applied the delta of its transaction. -/
structure Holds (an : Analyzer) (under : Nat → Types) (idx : FullTextIndex)
    (objects : Dict Nat StoredRecord) : Prop where
  docs : ∀ k, idx.docs.get? k = (objects.get? k).bind fun rec =>
    storedDoc an idx.fulltext idx.types (under rec.tid) rec
  known : ∀ k rec, objects.get? k = some rec → idx.types.contains rec.cid = true

theorem insertDoc_run (an : Analyzer) (c : String) (texts : Dict String String) {oid : Nat}
    (h : idx.docs.get? oid = none) :
    ∃ docs, insertDoc an oid c texts idx = .ok { idx with docs := docs } ∧
      ∀ k, docs.get? k = if k = oid then doc an idx.fulltext c texts else idx.docs.get? k := by
  unfold insertDoc doc
  by_cases hempty : texts.entries.isEmpty = true
  · refine ⟨idx.docs, by rw [if_pos hempty], fun k => ?_⟩
    rw [if_pos hempty]
    split
    · rename_i hk
      rw [hk, h]
    · rfl
  · have hfree : ¬idx.docs.contains oid = true := by
      rw [Dict.contains, h]
      decide
    exact ⟨_, by rw [if_neg hempty, if_neg hfree], fun k => by rw [if_neg hempty, Dict.get?_set]⟩

/-- The document of a written record takes the place of the one it had. -/
theorem applyOp_upsert (an : Analyzer) (types : Types) {op : DeltaOp} {payload : Payload}
    (tid : Nat)
    (hcid : idx.types.contains op.cid = true) (hkind : op.kind = .upsert)
    (hpayload : op.payload = some payload) :
    ∃ docs, applyOp an types idx op = .ok { idx with docs := docs } ∧
      ∀ k, docs.get? k = if k = op.oid then
        storedDoc an idx.fulltext idx.types types ⟨op.oid, op.cid, tid, payload⟩
        else idx.docs.get? k := by
  have hdropped : ∀ k, (idx.docs.erase op.oid).get? k =
      if k = op.oid then none else idx.docs.get? k := fun k => Dict.get?_erase _ _ _
  rcases Option.isSome_iff_exists.mp hcid with ⟨⟨c, persisted⟩, hshape⟩
  unfold applyOp proseValues
  simp only [hkind, hshape, storedDoc, Option.bind_some]
  cases hwanted : idx.fulltext.get? c with
  -- No mapping, no document.
  | none => exact ⟨_, rfl, hdropped⟩
  | some wanted =>
      -- A mapping that names no field makes none either.
      by_cases hnone : wanted.entries.isEmpty = true
      · simp only [hnone, if_true, Option.bind_some]
        refine ⟨_, rfl, fun k => ?_⟩
        have hkeys : wanted.keys = [] := by
          rw [Dict.keys, List.isEmpty_iff.mp hnone]
          rfl
        rw [hdropped]
        unfold doc textsOf
        rw [hkeys]
        rfl
      · simp only [hnone, hpayload, Bool.false_eq_true, if_false, Option.bind_some]
        -- The old document is gone, so the new one finds its place free.
        have hfree : (idx.dropDoc op.oid).docs.get? op.oid = none := Dict.get?_erase_self _ _
        rcases insertDoc_run an c (textsOf wanted (proseValue types c persisted payload)) hfree
          with ⟨docs, hrun, hdocs⟩
        refine ⟨docs, hrun, fun k => ?_⟩
        rw [hdocs]
        change (if k = op.oid then _ else (idx.docs.erase op.oid).get? k) = _
        rw [hdropped]
        split <;> rfl

theorem applyOp_delete {op : DeltaOp} {prior : Payload} (hkind : op.kind = .delete)
    (hprior : op.prior = some prior) :
    applyOp an types idx op = .ok (idx.dropDoc op.oid) := by
  unfold applyOp
  rw [hkind]
  simp only [hprior]

/-- What an attached index takes of an operation: its shape is known, and it writes
    a payload or ends one. -/
structure Takes (lineage : Dict Nat (String × List String)) (op : DeltaOp) : Prop where
  known : lineage.contains op.cid = true
  acts : (op.kind = .upsert ∧ op.payload.isSome) ∨ (op.kind = .delete ∧ op.prior.isSome)

/-- An operation keeps an index and the records it stands for together. -/
theorem applyOp_holds (tid : Nat) {op : DeltaOp} (hop : Takes idx.types op)
    (h : Holds an under idx objects) :
    ∃ docs, applyOp an (under tid) idx op = .ok { idx with docs := docs } ∧
      Holds an under { idx with docs := docs } (DeltaOp.hold tid objects op) := by
  -- An upsert replaces the document of its record, a delete drops it.
  rcases hop.acts with ⟨hkind, hsome⟩ | ⟨hkind, hsome⟩
  · rcases Option.isSome_iff_exists.mp hsome with ⟨payload, hpayload⟩
    rcases applyOp_upsert an (under tid) tid hop.known hkind hpayload with
      ⟨docs, hrun, hdocs⟩
    have hhold : DeltaOp.hold tid objects op =
        objects.set op.oid ⟨op.oid, op.cid, tid, payload⟩ := by
      unfold DeltaOp.hold
      rw [hkind, hpayload]
    refine ⟨docs, hrun, fun k => ?_, fun k rec hrec => ?_⟩
    · rw [hdocs, hhold, Dict.get?_set]
      by_cases hk : k = op.oid
      · rw [if_pos hk, if_pos hk]
        rfl
      · rw [if_neg hk, if_neg hk]
        exact h.docs k
    · rw [hhold, Dict.get?_set] at hrec
      by_cases hk : k = op.oid
      · rw [if_pos hk] at hrec
        cases hrec
        exact hop.known
      · rw [if_neg hk] at hrec
        exact h.known k rec hrec
  · rcases Option.isSome_iff_exists.mp hsome with ⟨prior, hprior⟩
    have hhold : DeltaOp.hold tid objects op = objects.erase op.oid := by
      unfold DeltaOp.hold
      rw [hkind]
    refine ⟨_, applyOp_delete hkind hprior, fun k => ?_, fun k rec hrec => ?_⟩
    · rw [hhold, Dict.get?_erase, Dict.get?_erase]
      by_cases hk : k = op.oid
      · rw [if_pos hk, if_pos hk]
        rfl
      · rw [if_neg hk, if_neg hk]
        exact h.docs k
    · rw [hhold, Dict.get?_erase] at hrec
      by_cases hk : k = op.oid
      · rw [if_pos hk] at hrec
        cases hrec
      · rw [if_neg hk] at hrec
        exact h.known k rec hrec

theorem applyOps_hold (tid : Nat) (ops : List DeltaOp) : ∀ (idx : FullTextIndex)
    (objects : Dict Nat StoredRecord), (∀ op ∈ ops, Takes idx.types op) →
      Holds an under idx objects →
      ∃ docs, ops.foldlM (applyOp an (under tid)) idx = .ok { idx with docs := docs } ∧
        Holds an under { idx with docs := docs } (ops.foldl (DeltaOp.hold tid) objects) := by
  induction ops with
  | nil => exact fun idx objects _ h => ⟨idx.docs, rfl, h⟩
  | cons op ops ih =>
      intro idx objects hops h
      rcases applyOp_holds tid (hops op List.mem_cons_self) h with ⟨docs, hrun, hone⟩
      rcases ih { idx with docs := docs } _ (fun op' hop => hops op' (List.mem_cons_of_mem op hop))
        hone with ⟨docs', hrest, hall⟩
      exact ⟨docs', by rw [List.foldlM_cons, hrun]; exact hrest, hall⟩

/-- New shapes leave the documents of the records alone. -/
theorem learn_holds {rows : List TypeRow} (h : Holds an under idx objects)
    (hkept : ∀ cid, idx.types.contains cid = true →
      (idx.learn rows).types.get? cid = idx.types.get? cid) :
    Holds an under (idx.learn rows) objects := by
  refine ⟨fun k => ?_, fun k rec hrec => ?_⟩
  · change idx.docs.get? k = _
    rw [h.docs k]
    cases hrec : objects.get? k with
    | none => rfl
    | some rec =>
        simp only [Option.bind_some, storedDoc, hkept rec.cid (h.known k rec hrec)]
        rfl
  · rw [Dict.contains, hkept rec.cid (h.known k rec hrec)]
    exact h.known k rec hrec

/-- The operations of a delta are ones an index takes. -/
theorem takes_of_next {a a' : Applier} {d : Delta} (h : Applier.Next a d a') :
    ∀ op ∈ d.ops, Takes a'.types op := by
  intro op hop
  refine ⟨h.shapes.2 op hop, ?_⟩
  rcases h.ops with ⟨prior, records, deletes, hops⟩
  rw [hops] at hop
  rcases List.mem_append.mp hop with hop | hop
  · rcases List.mem_map.mp hop with ⟨rec, -, rfl⟩
    exact Or.inl ⟨rfl, rfl⟩
  · rcases List.mem_map.mp hop with ⟨e, -, rfl⟩
    exact Or.inr ⟨rfl, rfl⟩

/-- An attached index takes every delta of a stream, and its documents are those of
    the records the stream carries. -/
theorem replay_served {ds : List Delta} {a : Applier} (an : Analyzer) (under : Nat → Types)
    (m : FullTextMap) (h : Applier.Served ds a) :
    ∃ idx, replay an under m ds = .ok idx ∧ idx.fulltext = m ∧ idx.types = a.types ∧
      idx.watermark = a.watermark ∧ Holds an under idx (held ds) := by
  induction h with
  | start =>
      exact ⟨{ fulltext := m }, rfl, rfl, rfl, rfl, fun k => rfl, fun k rec hrec => nomatch hrec⟩
  | @next ds a a' d h hnext ih =>
      rcases ih with ⟨idx, hrun, hmap, htypes, hwatermark, hholds⟩
      -- The next delta teaches the index its types and runs its operations one by one.
      have hlearn : (idx.learn d.types).types = a'.types := by
        rw [hnext.shapes.1, learn, htypes]
        rfl
      have hkept : ∀ cid, idx.types.contains cid = true →
          (idx.learn d.types).types.get? cid = idx.types.get? cid := by
        intro cid hcid
        rw [hlearn, htypes]
        exact hnext.types_kept (htypes ▸ hcid)
      rcases applyOps_hold d.tid d.ops _ _
        (fun op hop => hlearn ▸ takes_of_next hnext op hop) (learn_holds hholds hkept) with
        ⟨docs, hops, hall⟩
      refine ⟨{ idx.learn d.types with docs := docs, watermark := d.tid }, ?_, hmap, hlearn, ?_,
        ?_, ?_⟩
      -- It is the next one, so it is neither skipped nor refused as a gap.
      · have hahead : ¬d.tid ≤ idx.watermark := by
          rw [hwatermark, hnext.tid]
          omega
        have hone : ¬d.tid ≠ idx.watermark + 1 := by
          rw [hwatermark]
          exact not_not_intro hnext.tid
        have happly : apply an (under d.tid) idx d =
            .ok (true, { idx.learn d.types with docs := docs, watermark := d.tid }) := by
          unfold apply
          simp only [hnext.header, if_neg hahead, if_neg hone, hops]
          rfl
        unfold replay at hrun ⊢
        rw [List.foldlM_append, hrun]
        simp only [List.foldlM_cons, List.foldlM_nil]
        change ((apply an (under d.tid) idx d).map Prod.snd >>= pure) = _
        rw [happly]
        rfl
      · exact hnext.watermark.symm
      · rw [held_snoc]
        exact hall.docs
      · rw [held_snoc]
        exact hall.known

section Bootstrap

variable {s : Snapshot}

/-- The document a bootstrapped index has of a record. -/
def viewDoc (an : Analyzer) (types : Types) (m : FullTextMap) (s : Snapshot) (rec : StoredRecord) :
    Option DocRow :=
  match s.materialize types rec with
  | .ok v => (m.get? v.typename).bind fun wanted =>
    doc an m v.typename (textsOf wanted v.values.get?)
  | .error _ => none

/-- The views of a class enter an index that has none of them. -/
theorem insertViews_run (an : Analyzer) (c : String) (views : List EntityView) :
    ∀ idx : FullTextIndex, (views.map EntityView.oid).Nodup → (∀ v ∈ views, idx.docs.get? v.oid = none) →
      ∃ docs, views.foldlM (insertView an c) idx = .ok { idx with docs := docs } ∧
        ∀ k, docs.get? k = match views.find? fun v => v.oid = k with
          | some v =>
            doc an idx.fulltext c (textsOf (idx.fulltext.getD c Dict.empty) v.values.get?)
          | none => idx.docs.get? k := by
  induction views with
  | nil => exact fun idx _ _ => ⟨idx.docs, rfl, fun k => rfl⟩
  | cons v views ih =>
      intro idx hnd hfree
      rw [List.map_cons, List.nodup_cons] at hnd
      rcases insertDoc_run an c (textsOf (idx.fulltext.getD c Dict.empty) v.values.get?)
        (hfree v List.mem_cons_self) with ⟨docs, hrun, hdocs⟩
      -- The OIDs are distinct, so the views that follow find no document of theirs.
      have hothers : ∀ u ∈ views, docs.get? u.oid = none := by
        intro u hu
        have hne : u.oid ≠ v.oid := fun hc => hnd.1 (hc ▸ List.mem_map_of_mem hu)
        rw [hdocs, if_neg hne]
        exact hfree u (List.mem_cons_of_mem v hu)
      rcases ih { idx with docs := docs } hnd.2 hothers with ⟨docs', hrest, hall⟩
      refine ⟨docs', ?_, fun k => ?_⟩
      · rw [List.foldlM_cons]
        change (insertDoc an v.oid c _ idx >>= _) = _
        rw [hrun]
        exact hrest
      · rw [hall k, List.find?_cons]
        by_cases hk : v.oid = k
        · -- no other view is of this record
          have hnone : (views.find? fun u => u.oid = k) = none := by
            rw [List.find?_eq_none]
            intro u hu hc
            have huk : u.oid = k := of_decide_eq_true hc
            exact hnd.1 (hk.trans huk.symm ▸ List.mem_map_of_mem hu)
          simp only [hk, hnone, decide_true]
          rw [hdocs, if_pos hk.symm]
        · simp only [hk, decide_false]
          cases hfind : views.find? fun u => u.oid = k with
          | some u => rfl
          | none =>
              change docs.get? k = _
              rw [hdocs, if_neg (Ne.symm hk)]

/-- The index has the documents of some classes, and no others. A bootstrap goes
    through the classes one by one, and this is its loop invariant. -/
def Covers (an : Analyzer) (types : Types) (s : Snapshot) (done : List String)
    (idx : FullTextIndex) : Prop :=
  ∀ k, idx.docs.get? k = (s.view.objects.get? k).bind fun rec =>
    if ∃ c ∈ done, s.view.typenameOf rec.cid = some c then viewDoc an types idx.fulltext s rec
    else none

/-- One more class. -/
theorem bootstrapType_run (h : s.view.Filing) {done : List String} (hc : c ∉ done)
    {views : List EntityView} (hall : s.all types c = .ok views)
    (hwanted : (idx.fulltext.get? c).isSome) (hidx : Covers an types s done idx) :
    ∃ docs, bootstrapType an types s idx c = .ok { idx with docs := docs } ∧
      Covers an types s (done ++ [c]) { idx with docs := docs } := by
  rcases Snapshot.all_spec h hall with ⟨hnd, hmem⟩
  rcases Option.isSome_iff_exists.mp hwanted with ⟨wanted, hget⟩
  have hgetD : idx.fulltext.getD c Dict.empty = wanted := by
    rw [Dict.getD, hget]
    rfl
  -- A record of this class is not one of the classes before.
  have hfree : ∀ rec, s.view.RecordOf c rec → idx.docs.get? rec.oid = none := by
    intro rec hrec
    have hno : ¬∃ c' ∈ done, s.view.typenameOf rec.cid = some c' := by
      rintro ⟨c', hc', hcls⟩
      rw [hrec.2, Option.some.injEq] at hcls
      exact hc (hcls ▸ hc')
    rw [hidx, hrec.1, Option.bind_some, if_neg hno]
  rcases insertViews_run an c views idx hnd (fun v hv => by
    rcases (hmem v).mp hv with ⟨rec, hrec, hone⟩
    rw [Snapshot.oid_of_materialize hone]
    exact hfree rec hrec) with ⟨docs, hrun, hdocs⟩
  refine ⟨docs, ?_, fun k => ?_⟩
  · unfold bootstrapType
    rw [hall]
    exact hrun
  · change docs.get? k = _
    rw [hdocs, hgetD]
    -- What stands under an OID: no record, a record of this class, or one of another class.
    cases hrec : s.view.objects.get? k with
    | none =>
        have hnone : (views.find? fun v => v.oid = k) = none := by
          rw [List.find?_eq_none]
          intro v hv hk
          rcases (hmem v).mp hv with ⟨rec, hof, hone⟩
          have hoid : rec.oid = k :=
            (Snapshot.oid_of_materialize hone).symm.trans (of_decide_eq_true hk)
          rw [← hoid, hof.1] at hrec
          cases hrec
        rw [hnone]
        change idx.docs.get? k = _
        rw [hidx, hrec]
        rfl
    | some rec =>
        have hoid := h.filed k rec hrec
        by_cases hcls : s.view.typenameOf rec.cid = some c
        · have hof : s.view.RecordOf c rec := ⟨by rw [hoid]; exact hrec, hcls⟩
          rcases (Snapshot.all_ok_iff h).mp ⟨views, hall⟩ with ⟨-, hdecodes⟩
          rcases hdecodes rec hof with ⟨v, hone⟩
          have hv : v.oid = k := (Snapshot.oid_of_materialize hone).trans hoid
          have hfind : (views.find? fun u => u.oid = k) = some v := by
            rw [← hv]
            cases hf : views.find? fun u => u.oid = v.oid with
            | none =>
                rw [List.find?_eq_none] at hf
                exact absurd (decide_eq_true rfl) (hf v ((hmem v).mpr ⟨rec, hof, hone⟩))
            | some u =>
                have hu : u.oid = v.oid := by simpa using List.find?_some hf
                rw [List.inj_on_of_nodup_map hnd (List.mem_of_find?_eq_some hf)
                  ((hmem v).mpr ⟨rec, hof, hone⟩) hu]
          have hdone : ∃ c' ∈ done ++ [c], s.view.typenameOf rec.cid = some c' :=
            ⟨c, List.mem_append_right _ List.mem_cons_self, hcls⟩
          have hname := (Snapshot.materialize_spec h (h.filedAs hof) hone).2.1
          rw [hfind, Option.bind_some, if_pos hdone]
          simp only [viewDoc, hone, hname, hget, Option.bind_some]
        -- A record of another class has the document it had, if its class was among those before.
        · have hnone : (views.find? fun v => v.oid = k) = none := by
            rw [List.find?_eq_none]
            intro v hv hk
            rcases (hmem v).mp hv with ⟨rec', hof, hone⟩
            have hoid' : rec'.oid = k :=
              (Snapshot.oid_of_materialize hone).symm.trans (of_decide_eq_true hk)
            have hsame := hof.1
            rw [hoid', hrec, Option.some.injEq] at hsame
            exact hcls (hsame ▸ hof.2)
          have hmore : (∃ c' ∈ done ++ [c], s.view.typenameOf rec.cid = some c') ↔
              ∃ c' ∈ done, s.view.typenameOf rec.cid = some c' := by
            constructor
            · rintro ⟨c', hc', hcls'⟩
              rcases List.mem_append.mp hc' with hc' | hc'
              · exact ⟨c', hc', hcls'⟩
              · rw [List.mem_singleton] at hc'
                exact absurd (hc' ▸ hcls') hcls
            · rintro ⟨c', hc', hcls'⟩
              exact ⟨c', List.mem_append_left _ hc', hcls'⟩
          rw [hnone]
          change idx.docs.get? k = _
          rw [hidx, hrec, Option.bind_some, Option.bind_some]
          simp only [hmore]

theorem bootstrapTypes_run (an : Analyzer) (types : Types) (h : s.view.Filing) (cs : List String) :
    ∀ (done : List String) (idx : FullTextIndex), (done ++ cs).Nodup →
      (∀ c ∈ cs, (∃ views, s.all types c = .ok views) ∧ (idx.fulltext.get? c).isSome) →
      Covers an types s done idx →
      ∃ docs, cs.foldlM (bootstrapType an types s) idx = .ok { idx with docs := docs } ∧
        Covers an types s (done ++ cs) { idx with docs := docs } := by
  induction cs with
  | nil =>
      intro done idx _ _ hidx
      rw [List.append_nil]
      exact ⟨idx.docs, rfl, hidx⟩
  | cons c cs ih =>
      intro done idx hnd hcs hidx
      rcases hcs c List.mem_cons_self with ⟨⟨views, hall⟩, hwanted⟩
      have hc : c ∉ done := fun hmem =>
        (List.nodup_append.mp hnd).2.2 c hmem c List.mem_cons_self rfl
      rcases bootstrapType_run h hc hall hwanted hidx with ⟨docs, hone, hcovers⟩
      rw [List.append_cons] at hnd ⊢
      rcases ih (done ++ [c]) { idx with docs := docs } hnd
        (fun c' hc' => hcs c' (List.mem_cons_of_mem c hc')) hcovers with ⟨docs', hrest, hlast⟩
      exact ⟨docs', by rw [List.foldlM_cons, hone]; exact hrest, hlast⟩

/-- An index is bootstrapped when every mapped class can be listed. -/
theorem bootstrap_ok_iff (an : Analyzer) (h : s.view.Filing) :
    (∃ boot, bootstrap an types m s = .ok boot) ↔
    ∀ c ∈ m.keys, s.Builds types c ∧ s.Decodes types c := by
  constructor
  · rintro ⟨boot, hboot⟩ c hc
    rcases except_bind_ok_iff.mp hboot with ⟨idx, hrun, -⟩
    rcases except_foldlM_mem hrun c hc with ⟨r, r', hone⟩
    rcases except_bind_ok_iff.mp hone with ⟨views, hviews, -⟩
    exact (Snapshot.all_ok_iff h).mp ⟨views, except_mapError_ok_iff.mp hviews⟩
  · intro hall
    rcases bootstrapTypes_run an types h m.keys []
      (learn s.view.types { fulltext := m }) (by simpa using m.nodup_keys)
      (fun c hc => ⟨(Snapshot.all_ok_iff h).mpr (hall c hc), (Dict.isSome_get?_iff _ _).mpr hc⟩)
      (fun k => by cases hrec : s.view.objects.get? k <;> simp [learn]) with ⟨docs, hrun, -⟩
    exact ⟨_, by unfold bootstrap; rw [hrun]; rfl⟩

/-- What an index is bootstrapped to. -/
theorem bootstrap_spec (h : s.view.Filing) {boot : FullTextIndex}
    (hboot : bootstrap an types m s = .ok boot) (k : Nat) :
    boot.docs.get? k = (s.view.objects.get? k).bind (viewDoc an types m s) := by
  have hall := (bootstrap_ok_iff an h).mp ⟨boot, hboot⟩
  rcases bootstrapTypes_run an types h m.keys []
    (learn s.view.types { fulltext := m }) (by simpa using m.nodup_keys)
    (fun c hc => ⟨(Snapshot.all_ok_iff h).mpr (hall c hc), (Dict.isSome_get?_iff _ _).mpr hc⟩)
    (fun k => by cases hrec : s.view.objects.get? k <;> simp [learn]) with ⟨docs, hrun, hcovers⟩
  unfold bootstrap at hboot
  rw [hrun] at hboot
  cases hboot
  rw [List.nil_append] at hcovers
  refine (hcovers k).trans (Option.bind_congr fun rec hrec => ?_)
  by_cases hmapped : ∃ c ∈ m.keys, s.view.typenameOf rec.cid = some c
  · rw [if_pos hmapped]
    rfl
  · -- a record of another class has no document
    rw [if_neg hmapped]
    unfold viewDoc
    cases hone : s.materialize types rec with
    | error e => rfl
    | ok v =>
        rcases h.row k rec hrec with ⟨c, names, hfiled⟩
        have hname := (Snapshot.materialize_spec h hfiled hone).2.1
        have hno : m.get? c = none := by
          rw [← Dict.not_mem_keys_iff]
          exact fun hc => hmapped ⟨c, hc, h.typenameOf hfiled⟩
        simp only [hname, hno, Option.bind_none]

end Bootstrap

section Agreement

variable {b : Backend} {names : List String} {payload : Payload} {f : String}

/-- The text of a field that a payload has. -/
def persistedText (names : List String) (payload : Payload) (f : String) : Option String :=
  ((Snapshot.byName names payload).get? f).bind Val.text

/-- The text of a default an attached index fills in. -/
def defaultText (types : Types) (c f : String) : Option String :=
  ((types.known c).bind fun ti => ti.default? (ρ := Token) f).bind Val.text

/-- The text of a default a snapshot fills in, of a field of the live class. -/
def liveText (types : Types) (c f : String) : Option String :=
  ((types.known c).bind fun ti =>
    if f ∈ ti.fieldNames then ti.fill (ρ := Token) f else none).bind Val.text

/-- When the index of a stream is the one a snapshot bootstraps. The stream was
    indexed under the classes of its own time and the snapshot is read under those
    of now, so the two have to agree on what the records lack. -/
structure RebuildsAlike (under : Nat → Types) (types : Types) (m : FullTextMap) (b : Backend) :
    Prop where
  /-- A mapped protected class can be indexed. -/
  builds : ∀ c ∈ m.keys, Snapshot.Builds types ⟨b⟩ c
  /-- Every live field of a mapped class has a default if a record lacks it. -/
  filled : ∀ c ∈ m.keys, ∀ rec, b.RecordOf c rec → ∀ ti, types.known c = some ti →
    ∀ f ∈ ti.fieldNames, f ∉ b.fieldsOf rec.cid → (ti.fill (ρ := Token) f).isSome
  /-- A mapped field that has left the class has no text in a record. -/
  dropped : ∀ c wanted, m.get? c = some wanted → ∀ rec, b.RecordOf c rec →
    ∀ ti, types.known c = some ti → ∀ f ∈ wanted.keys, f ∈ b.fieldsOf rec.cid →
      f ∉ ti.fieldNames → persistedText (b.fieldsOf rec.cid) rec.payload f = none
  /-- A mapped field that a record lacks has the same default text in the process
      that applied the record's delta and in the one that bootstraps. -/
  added : ∀ c wanted, m.get? c = some wanted → ∀ rec, b.RecordOf c rec →
    ∀ f ∈ wanted.keys, f ∉ b.fieldsOf rec.cid →
      defaultText (under rec.tid) c f = liveText types c f

/-- When the two indexes read the same text of a field. -/
theorem text_alike_iff (before : Types) (hlen : names.length = payload.length) :
    (proseValue before c names payload f).bind Val.text =
        (Snapshot.viewValue types c names payload f).bind Val.text ↔
      (f ∈ names → ∀ ti, types.known c = some ti → f ∉ ti.fieldNames →
        persistedText names payload f = none) ∧
      (f ∉ names → defaultText before c f = liveText types c f) := by
  have hfreeze : ∀ v : Option (Val Token), (v.map Val.freeze).bind Val.text = v.bind Val.text := by
    intro v
    cases v with
    | none => rfl
    | some v => exact Val.text_freeze v
  unfold proseValue Snapshot.viewValue persistedText defaultText liveText
  cases hget : (Snapshot.byName names payload).get? f with
  | none =>
      -- The field is missing, and both fill in a default.
      have hf := (Snapshot.byName_eq_none hlen).mp hget
      simp only [hf, not_false_eq_true, forall_const, IsEmpty.forall_iff, true_and]
      cases types.known c with
      | none => rfl
      | some ti =>
          by_cases hlive : f ∈ ti.fieldNames
          · simp only [hlive, if_true, Option.none_or, Option.bind_some, hfreeze]
          · simp only [hlive, if_false, Option.bind_some]
  | some v =>
      -- The field is there, and the snapshot reads it if it is live.
      have hf : f ∈ names := by
        by_contra hno
        rw [(Snapshot.byName_eq_none hlen).mpr hno] at hget
        cases hget
      simp only [hf, forall_const, not_true_eq_false, IsEmpty.forall_iff, and_true]
      cases types.known c with
      | none => simp
      | some ti =>
          by_cases hlive : f ∈ ti.fieldNames
          · simp [hlive]
          · simp only [hlive, if_false, Option.bind_none, Option.bind_some, Option.some.injEq,
              forall_eq', not_false_eq_true, forall_const]

/-- The documents of one record are the same when its texts are. -/
theorem docs_alike_iff {lineage : Dict Nat (String × List String)} (before : Types)
    (h : b.Filing) (hlineage : ∀ cid v, lineage.get? cid = some v ↔ (cid, v) ∈ b.types)
    (hrec : b.FiledAs rec c names) {v : EntityView}
    (hv : Snapshot.materialize types ⟨b⟩ rec = .ok v) :
    viewDoc an types m ⟨b⟩ rec = storedDoc an m lineage before rec ↔
      ∀ wanted, m.get? c = some wanted → ∀ f ∈ wanted.keys,
        (f ∈ names → ∀ ti, types.known c = some ti → f ∉ ti.fieldNames →
          persistedText names rec.payload f = none) ∧
        (f ∉ names → defaultText before c f = liveText types c f) := by
  rcases Snapshot.materialize_spec h hrec hv with ⟨-, hname, hvalues⟩
  have hshape := (hlineage rec.cid (c, names)).mpr hrec.1
  have hget : v.values.get? = Snapshot.viewValue types c names rec.payload := funext hvalues
  simp only [viewDoc, storedDoc, hv, hname, hget, hshape, Option.bind_some]
  cases hwanted : m.get? c with
  | none => simp
  | some wanted =>
      simp only [Option.bind_some, Option.some.injEq, forall_eq']
      rw [eq_comm, doc_eq_iff hwanted]
      exact forall₂_congr fun f _ => text_alike_iff before hrec.2

/-- In every run, an index that has applied every delta of a stream that has reached
    storage, under whatever classes, has the documents of the one a root-bound
    snapshot bootstraps if and only if the fields and defaults of the mapped classes
    are alike. -/
theorem docs_rebuilt_iff (an : Analyzer) (m : FullTextMap) (under : Nat → Types) (types : Types)
    (events : List Event) :
    let w := (Watched.begin types true).run events
    let b := w.world.store.backend
    w.consumer.watermark + 1 = b.marks.nextTid →
      ∃ idx, replay an under m w.stream = .ok idx ∧ idx.watermark = (Snapshot.mk b).tid ∧
        ((∃ boot, bootstrap an w.world.types m ⟨b⟩ = .ok boot ∧
          ∀ k, boot.docs.get? k = idx.docs.get? k) ↔ RebuildsAlike under w.world.types m b) := by
  intro w b hsame
  rcases Watched.stream_holds_storage types events hsame with ⟨hserved, hmirrors, hheld, hfiling⟩
  rcases replay_served an under m hserved with ⟨idx, hrun, hmap, htypes, hwatermark, hholds⟩
  refine ⟨idx, hrun, ?_, ?_⟩
  · have hidx : idx.watermark = w.consumer.watermark := hwatermark
    rw [hidx, Snapshot.tid, ← hsame]
    rfl
  -- The stream knows the lineages of the storage, and its documents are those of the records.
  have hlineage : ∀ cid v, idx.types.get? cid = some v ↔ (cid, v) ∈ b.types :=
    htypes ▸ hmirrors.types
  have hdocs : ∀ k, idx.docs.get? k = (b.objects.get? k).bind fun rec =>
      storedDoc an m idx.types (under rec.tid) rec := by
    intro k
    rw [hholds.docs, hmap, hheld]
  have hdecodes : ∀ c, Snapshot.Decodes w.world.types ⟨b⟩ c ↔ ∀ rec, b.RecordOf c rec →
      ∀ ti, w.world.types.known c = some ti → ∀ f ∈ ti.fieldNames, f ∉ b.fieldsOf rec.cid →
        (ti.fill (ρ := Token) f).isSome := fun c =>
    forall₂_congr fun rec hrec => Snapshot.materialize_ok_iff hfiling (hfiling.filedAs hrec)
  constructor
  -- A bootstrap that agrees has read every record, so each mapped field agrees by itself.
  · rintro ⟨boot, hboot, halike⟩
    have hlisted := (bootstrap_ok_iff an hfiling).mp ⟨boot, hboot⟩
    have hone : ∀ c wanted, m.get? c = some wanted → ∀ rec, b.RecordOf c rec →
        ∀ f ∈ wanted.keys,
          (f ∈ b.fieldsOf rec.cid → ∀ ti, w.world.types.known c = some ti → f ∉ ti.fieldNames →
            persistedText (b.fieldsOf rec.cid) rec.payload f = none) ∧
          (f ∉ b.fieldsOf rec.cid →
            defaultText (under rec.tid) c f = liveText w.world.types c f) := by
      intro c wanted hwanted rec hrec
      have hkey : c ∈ m.keys := (Dict.mem_keys_iff _ _).mpr ⟨wanted, hwanted⟩
      rcases (hlisted c hkey).2 rec hrec with ⟨v, hv⟩
      have hk := halike rec.oid
      rw [bootstrap_spec hfiling hboot, hdocs] at hk
      simp only [hrec.1, Option.bind_some] at hk
      exact (docs_alike_iff (under rec.tid) hfiling hlineage (hfiling.filedAs hrec) hv).mp hk
        wanted hwanted
    exact ⟨fun c hc => (hlisted c hc).1, fun c hc => (hdecodes c).mp (hlisted c hc).2,
      fun c wanted hwanted rec hrec ti hti f hf hnames hlive =>
        (hone c wanted hwanted rec hrec f hf).1 hnames ti hti hlive,
      fun c wanted hwanted rec hrec f hf hnames =>
        (hone c wanted hwanted rec hrec f hf).2 hnames⟩
  -- Conversely, the classes read, and agree record by record.
  · intro h
    rcases (bootstrap_ok_iff an hfiling).mpr fun c hc =>
      ⟨h.builds c hc, (hdecodes c).mpr (h.filled c hc)⟩ with ⟨boot, hboot⟩
    refine ⟨boot, hboot, fun k => ?_⟩
    rw [bootstrap_spec hfiling hboot, hdocs]
    refine Option.bind_congr fun rec hrec => ?_
    have hoid := hfiling.filed k rec hrec
    rcases hfiling.row k rec hrec with ⟨c, names, hfiled⟩
    have hof : b.RecordOf c rec := ⟨by rw [hoid]; exact hrec, hfiling.typenameOf hfiled⟩
    by_cases hc : c ∈ m.keys
    · rcases (hdecodes c).mpr (h.filled c hc) rec hof with ⟨v, hv⟩
      refine (docs_alike_iff (under rec.tid) hfiling hlineage (hfiling.filedAs hof) hv).mpr
        fun wanted hwanted f hf => ?_
      exact ⟨fun hnames ti hti hlive => h.dropped c wanted hwanted rec hof ti hti f hf hnames hlive,
        h.added c wanted hwanted rec hof f hf⟩
    · -- a record of a class that is not mapped has no document
      have hno : m.get? c = none := (Dict.not_mem_keys_iff _ _).mp hc
      have hshape := (hlineage rec.cid (c, names)).mpr hfiled.1
      simp only [storedDoc, hshape, hno, Option.bind_some, Option.bind_none]
      unfold viewDoc
      cases hv : Snapshot.materialize w.world.types ⟨b⟩ rec with
      | error e => rfl
      | ok v =>
          have hname := (Snapshot.materialize_spec hfiling hfiled hv).2.1
          simp only [hname, hno, Option.bind_none]

/-- A text in one piece. -/
def wholeText : Analyzer := ⟨fun t => [t], id, fun tokens _ => tokens⟩

/-- The text of a note, in no language. -/
def noteTexts : FullTextMap := ⟨[("note", ⟨[("text", none)], by decide⟩)], by decide⟩

/-- A note with a text is committed. -/
def writtenNote : List Event :=
  [.act Watched.partOwner (.construct "note" [("text", .scalar (.str "hi"))]),
    .act Watched.partOwner (.store 0), .act Watched.partOwner (.commit false)]

/-- A later version of the program, whose notes have a title instead of a text. -/
def titledTypes : Types := fun c =>
  if c = "note" then
    some { dataSpecs := [{ name := "title", entityRef := false }]
           defaults := [("title", .scalar (.str ""))] }
  else none

/-- The indexes of a class that has not changed are the same. -/
theorem docs_rebuilt_on_note :
    let w := (Watched.begin Watched.notedTypes true).run writtenNote
    ∃ idx, replay wholeText (fun _ => Watched.notedTypes) noteTexts w.stream = .ok idx ∧
      idx.watermark = (Snapshot.mk w.world.store.backend).tid ∧
        (∃ boot, bootstrap wholeText w.world.types noteTexts ⟨w.world.store.backend⟩ = .ok boot ∧
          ∀ k, boot.docs.get? k = idx.docs.get? k) ∧
        RebuildsAlike (fun _ => Watched.notedTypes) w.world.types noteTexts
          w.world.store.backend := by
  intro w
  rcases docs_rebuilt_iff wholeText noteTexts (fun _ => Watched.notedTypes) Watched.notedTypes
    writtenNote (by decide +kernel) with ⟨idx, hidx, hmark, hiff⟩
  have hsame : (replay wholeText (fun _ => Watched.notedTypes) noteTexts w.stream).toOption.map
      (fun i => i.docs.entries) = some [(oidBase, ⟨"note", [(some "hi", none, some "hi")]⟩)] := by
    decide +kernel
  have hboot : (bootstrap wholeText w.world.types noteTexts ⟨w.world.store.backend⟩).toOption.map
      (fun i => i.docs.entries) = some [(oidBase, ⟨"note", [(some "hi", none, some "hi")]⟩)] := by
    decide +kernel
  rw [hidx] at hsame
  have hdocs : ∃ boot, bootstrap wholeText w.world.types noteTexts ⟨w.world.store.backend⟩ =
      .ok boot ∧ ∀ k, boot.docs.get? k = idx.docs.get? k := by
    cases hb : bootstrap wholeText w.world.types noteTexts ⟨w.world.store.backend⟩ with
    | error e =>
        rw [hb] at hboot
        cases hboot
    | ok boot =>
        rw [hb] at hboot
        have hentries : boot.docs.entries = idx.docs.entries :=
          (Option.some.inj hboot).trans (Option.some.inj hsame).symm
        refine ⟨boot, rfl, fun k => ?_⟩
        rw [Dict.get?, Dict.get?, hentries]
  exact ⟨idx, hidx, hmark, hdocs, hiff.mp hdocs⟩

/-- The text of the note stays in the attached index when the class has dropped the
    field. The bootstrapped index does not have it. -/
theorem dropped_field_stays_indexed :
    ¬∀ (an : Analyzer) (m : FullTextMap) (under : Nat → Types) (types : Types)
      (events : List Event), let w := (Watched.begin types true).run events
      w.consumer.watermark + 1 = w.world.store.backend.marks.nextTid →
        ∃ idx boot, replay an under m w.stream = .ok idx ∧
          bootstrap an w.world.types m ⟨w.world.store.backend⟩ = .ok boot ∧
            ∀ k, boot.docs.get? k = idx.docs.get? k := by
  intro h
  rcases h wholeText noteTexts (fun _ => Watched.notedTypes) Watched.notedTypes
    (writtenNote ++ [.closeAndOpen titledTypes]) (by decide +kernel) with
    ⟨idx, boot, hidx, hboot, halike⟩
  have hstored : ((replay wholeText (fun _ => Watched.notedTypes) noteTexts
      ((Watched.begin Watched.notedTypes true).run
        (writtenNote ++ [.closeAndOpen titledTypes])).stream).toOption.bind fun i =>
          i.docs.get? oidBase).isSome = true := by decide +kernel
  have hviewed : ((bootstrap wholeText titledTypes noteTexts
      ⟨((Watched.begin Watched.notedTypes true).run
        (writtenNote ++ [.closeAndOpen titledTypes])).world.store.backend⟩).toOption.bind fun i =>
          i.docs.get? oidBase).isSome = false := by decide +kernel
  have htypes : ((Watched.begin Watched.notedTypes true).run
      (writtenNote ++ [.closeAndOpen titledTypes])).world.types = titledTypes := rfl
  rw [hidx] at hstored
  rw [htypes] at hboot
  rw [hboot] at hviewed
  change (idx.docs.get? oidBase).isSome = true at hstored
  change (boot.docs.get? oidBase).isSome = false at hviewed
  rw [halike oidBase, hstored] at hviewed
  cases hviewed

end Agreement

end FullTextIndex

end DataCrystal
