import DataCrystal.Indexed
import DataCrystal.Lockstep

/-!
# Indexes across Sessions

A session ends with its indexes in a sidecar, stamped with the watermark, and the
next one may load them. Between the two anything may happen: the next session may
be without the sidecar, commit, crash, and leave the sidecar behind at a watermark
that is no longer storage's. A sidecar at storage's watermark is one no commit has
come after.

The classes of the next session may be different ones. A blob is used if the
markers of the class are the ones it was made under, and then it stands for the
rows the class reads now, provided the class still fills the fields old records
lack as it did. Those fills are the one thing an index depends on besides the
records and the markers.

## Main definitions

* `Backend.ReadsAs`: The fills a class gives the records that need them.
* `World.Indexed`: The indexes of a session and of the sidecar.
* `Watched.KeepsIndexed`: The condition on one event.

## Theorems

* `reopen_indexed`: A new session.
* `step_indexed`: One event keeps the indexes.
* `run_inStep`: The counters of a run.
-/

namespace DataCrystal

open ClassIndexes Store IndexManager

variable {fam : String → String → Family} {kin : String → String → Kin} {types : Types} {P : String → Prop}
  {fills : String → String → Option (Val Token)}

/-- A class gives the records that lack an indexed field the fill of the table. -/
def Backend.ReadsAs (fills : String → String → Option (Val Token)) (c : String) (ti : TypeInfo)
    (b : Backend) : Prop :=
  ∀ rec, b.RecordOf c rec → ∀ f ∈ ti.maintainedFields, f ∉ b.fieldsOf rec.cid →
    ti.fill f = fills c f

/-- Classes with the same fills and markers have the same rows. -/
theorem Backend.ReadsAs.sameKeys {kind : Nat → String} {s : Store} {c : String} {ti ti' : TypeInfo}
    (hs : StorageOk kind s) (h : s.backend.ReadsAs fills c ti) (h' : s.backend.ReadsAs fills c ti')
    (hm : ∀ f, f ∈ ti'.maintainedFields ↔ f ∈ ti.maintainedFields)
    (hl : ∀ f, f ∈ ti'.listFields ↔ f ∈ ti.listFields) :
    SameKeys ti (s.backend.classRows ti c) (s.backend.classRows ti' c) := by
  -- A field the record stores shows its value; one it lacks is filled alike by both classes.
  have hrow : ∀ k rec, s.backend.objects.get? k = some rec →
      s.backend.typenameOf rec.cid = some c → ∀ f ∈ ti.maintainedFields,
        rowKeys ti' (s.backend.rowOf ti' rec) f = rowKeys ti (s.backend.rowOf ti rec) f := by
    intro k rec hget hcls f hf
    have hoid := (hs.records k rec hget).1
    have hrec : s.backend.RecordOf c rec := ⟨by rw [hoid]; exact hget, hcls⟩
    have hlist : ti'.listFields.contains f = ti.listFields.contains f := by
      rw [Bool.eq_iff_iff, List.contains_iff_mem, List.contains_iff_mem]
      exact hl f
    have hvalue : s.backend.rowOf ti' rec f = s.backend.rowOf ti rec f := by
      unfold Backend.rowOf recordRow
      by_cases hin : (s.backend.fieldsOf rec.cid).contains f = true
      · rw [if_pos hin, if_pos hin]
      · rw [if_neg hin, if_neg hin]
        have hlacks : f ∉ s.backend.fieldsOf rec.cid := fun hc =>
          hin (List.contains_iff_mem.mpr hc)
        rw [h rec hrec f hf hlacks, h' rec hrec f ((hm f).mpr hf) hlacks]
    unfold rowKeys
    rw [hlist, hvalue]
  -- Which rows there are does not depend on the class that reads them.
  constructor
  · intro k
    cases hnew : s.backend.classRows ti' c k with
    | some row =>
        rcases classRows_some hnew with ⟨rec, hget, hcls, -⟩
        rw [classRows_of_record hget hcls]
        rfl
    | none =>
        cases hold : s.backend.classRows ti c k with
        | none => rfl
        | some row =>
            rcases classRows_some hold with ⟨rec, hget, hcls, -⟩
            rw [classRows_of_record hget hcls] at hnew
            cases hnew
  · intro k f hf
    cases hold : s.backend.classRows ti c k with
    | some row =>
        rcases classRows_some hold with ⟨rec, hget, hcls, rfl⟩
        rw [classRows_of_record hget hcls, recalled_some, recalled_some]
        exact hrow k rec hget hcls f hf
    | none =>
        cases hnew : s.backend.classRows ti' c k with
        | none => rfl
        | some row =>
            rcases classRows_some hnew with ⟨rec, hget, hcls, -⟩
            rw [classRows_of_record hget hcls] at hold
            cases hold

namespace Store

variable {p : Principal} {kind : Nat → String} {s t : Store} {out : EncodedBatch}

/-- A commit writes every field its classes have now. -/
theorem stored_readsAs (h : Coherent kind t) (hb : BatchOk types t t.pending.entries t out)
    (hreads : ∀ c, t.backend.ReadsAs fills c (types.info c)) (c : String) :
    (t.backend.apply (t.buildBatch out)).ReadsAs fills c (types.info c) := by
  intro rec hrec f hf hlacks
  rcases stored_recordOf h hb hrec with ⟨hold, -⟩ | ⟨o, -, -, -, hnames⟩
  · refine hreads c rec hold f hf fun hin => hlacks ?_
    have hfind := Backend.find?_types_apply (t.buildBatch out) (h.storage.row hold.1) rfl
    rw [Backend.fieldsOf, hfind]
    exact hin
  · rw [hnames] at hlacks
    exact absurd (mem_fieldNames_of_maintained hf) hlacks

/-- A commit leaves storage as it was, or one transaction on. -/
theorem ends_backend {fault : Bool} {u : Store} (hends : Ends types p fault s u) :
    u.backend = s.backend ∨ ∃ s₁ m out t, Captured types p s s₁ m out t ∧
      u.backend = t.backend.apply (t.buildBatch out) := by
  rcases hends with hprep | ⟨s₁, m, out, t, hcap, rfl⟩
  · exact Or.inl (backend_of_prepares hprep)
  · cases fault with
    | true =>
        rw [if_pos rfl]
        exact Or.inl ((backend_p2Rollback _ _).trans ((backend_settle _ _).trans
          (backend_of_prepares hcap.prepares)))
    | false =>
        rw [if_neg (by decide)]
        exact Or.inr ⟨s₁, m, out, t, hcap, backend_finalize types s₁ t out⟩

end Store

namespace World

variable {kind : Nat → String} {w : World}

/-- The sidecar: never ahead of storage, and at its watermark made of its rows. One
    that is behind is not loaded, so nothing is asked of it. -/
def SidecarOk (P : String → Prop) (fam : String → String → Family)
    (fills : String → String → Option (Val Token)) (b : Backend) (sidecar : Option Sidecar) : Prop :=
  ∀ sc, sidecar = some sc → sc.watermark + 1 ≤ b.marks.nextTid ∧
    (sc.watermark + 1 = b.marks.nextTid → ∀ c blob, P c → sc.classes.get? c = some blob →
      ∃ ti, b.ReadsAs fills c ti ∧ blob.Stands (fam c) ti (b.classRows ti c))

/-- The indexes of a session and of the sidecar next to it. The classes fill old
    records as those before did, since an index that was loaded has their fills in
    it. -/
structure Indexed (P : String → Prop) (fam : String → String → Family)
    (fills : String → String → Option (Val Token)) (w : World) : Prop where
  store : w.store.Indexed P fam w.types
  sidecar : SidecarOk P fam fills w.store.backend w.sidecar
  reads : ∀ c, w.store.backend.ReadsAs fills c (w.types.info c)

/-- The classes of a process can read a store, fill its old records as before,
    and its records conform and hold no unique key twice. -/
structure Opens (fam : String → String → Family) (fills : String → String → Option (Val Token))
    (types : Types) (b : Backend) : Prop where
  shapes : ∀ c, Admits (types.info c) (b.lineageOf c) b.scanType
  conform : RowsConform fam types b
  distinct : ∀ c, Distinct (types.info c) (b.classRows (types.info c) c)
  reads : ∀ c, b.ReadsAs fills c (types.info c)

theorem Opens.readable {b : Backend} (h : Opens fam fills types b) : b.Readable (Kin.ofFamilies fam) types :=
  ⟨fun c rec hrec => (h.conform c rec hrec).sortable, h.shapes⟩

theorem reopen_indexed {s : Store} (hs : StorageOk kind s) {sidecar : Option Sidecar}
    (hside : SidecarOk P fam fills s.backend sidecar) (hopen : Opens fam fills types s.backend) :
    (reopen types sidecar s.backend).Indexed P fam fills := by
  refine ⟨⟨⟨fun c ci hP hci => ?_, fun c blob hP hno hblob hmatch => ?_⟩, hopen.conform,
    hopen.distinct⟩, hside, hopen.reads⟩
  · cases hci
  · have hcached : ((sidecar.filter fun sc => sc.watermark + 1 = s.backend.marks.nextTid).map
        Sidecar.classes).bind (fun blobs => blobs.get? c) = some blob := hblob
    rcases Option.bind_eq_some_iff.mp hcached with ⟨blobs, hblobs, hget⟩
    rcases Option.map_eq_some_iff.mp hblobs with ⟨sc, hsc, rfl⟩
    rcases Option.filter_eq_some_iff.mp hsc with ⟨hsome, hcurrent⟩
    rcases (hside sc hsome).2 (of_decide_eq_true hcurrent) c blob hP hget with
      ⟨ti, hreads, hstands⟩
    -- The blob was made under the markers the class has now.
    rcases blobMatches_fields hmatch with ⟨heq, hunique, hlist, -⟩
    refine hstands.transfer hmatch (hreads.sameKeys hs (hopen.reads c) (fun f => ?_) fun f => ?_)
    · rw [TypeInfo.mem_maintainedFields, TypeInfo.mem_maintainedFields]
      exact or_congr ((heq f).symm.trans (hstands.represents.eqKeys f))
        ((hunique f).symm.trans (hstands.represents.uniqueKeys f))
    · exact (hlist f).symm.trans (hstands.represents.listFields f)

/-- What a session leaves in the sidecar. -/
theorem closed_indexed (hs : StorageOk kind w.store) (h : w.Indexed P fam fills)
    (hin : w.store.InStep) :
    SidecarOk P fam fills w.store.backend w.closed := by
  unfold closed
  dsimp only
  split
  · exact h.sidecar
  · intro sc hsc
    rw [← Option.some.inj hsc]
    refine ⟨Nat.le_of_eq hin.lastTid, fun _ c blob hP hblob => ?_⟩
    dsimp only at hblob
    rw [IndexManager.dumpForCache, Dict.get?_mapVal, Option.map_eq_some_iff] at hblob
    rcases hblob with ⟨ci, hci, rfl⟩
    have hstands := h.store.index.built c ci hP hci
    refine ⟨w.types.info c, h.reads c,
      stands_dump hstands.represents hstands.sound fun f hf n hn => ?_⟩
    cases hrow : w.store.backend.classRows (w.types.info c) c n with
    | none => rw [hrow] at hn; exact absurd hn List.not_mem_nil
    | some row =>
        rcases classRows_some hrow with ⟨rec, hget, hcls, rfl⟩
        rw [hrow] at hn
        have hrec : w.store.backend.RecordOf c rec :=
          ⟨by rw [(hs.records n rec hget).1]; exact hget, hcls⟩
        exact (h.store.conform c rec hrec).elements f hf hn

end World

namespace Watched

variable {kind : Nat → String} {w : Watched}

/-- The entities of a commit conform and none of them stays unseen; a new session
    can read what there is. -/
def KeepsIndexed (P : String → Prop) (fam : String → String → Family)
    (fills : String → String → Option (Val Token)) (w : Watched) : Event → Prop
  | .act p (.commit _) => ∀ s₁, discoverNewGraphs w.world.types p w.world.store = .ok () s₁ →
      BuffersConform fam w.world.types s₁ ∧ NoneUnseen P w.world.types s₁
  | .act _ _ => True
  | .closeAndOpen types => World.Opens fam fills types w.world.store.backend
  | .crashAndOpen types => World.Opens fam fills types w.world.store.backend

theorem KeepsIndexed.keepsKinds {e : Event} (h : KeepsIndexed P fam fills w e) :
    KeepsKinds (Kin.ofFamilies fam) w e := by
  cases e with
  | act p op =>
      cases op with
      | commit fault => exact fun s₁ hs₁ => (h s₁ hs₁).1.sortable
      | _ => trivial
  | closeAndOpen types => exact World.Opens.readable h
  | crashAndOpen types => exact World.Opens.readable h

/-- The counters of a store behind one event. -/
theorem step_inStep {e : Event} (hc : w.world.Coherent kind) (ht : w.world.Tidy kin)
    (hin : w.world.store.InStep) (hcond : KeepsKinds kin w e) :
    (w.step e).world.store.InStep := by
  rcases step_world w e with ⟨p, fault, rfl, u, hends, hworld⟩ | ⟨hno, hworld⟩
  · rw [hworld]
    exact ends_inStep hends hc.store hin (completes_of_keeps hc ht hcond)
  · rw [hworld]
    cases e with
    | closeAndOpen types => exact loadState_inStep hin.stored hin.pos
    | crashAndOpen types => exact loadState_inStep hin.stored hin.pos
    | act p op =>
        rcases op.kinds with hop | ⟨fault, rfl⟩ | rfl
        · have hmoves := moves_op w.world.types p op hop w.world.store
          exact prepared_inStep (Relation.ReflTransGen.mono
            (fun _ _ he => (Or.inl he : Prepares w.world.types p _ _)) _ _ hmoves) hc.store hin
        · exact absurd rfl (hno p fault)
        · exact discard_inStep hin

theorem run_inStep (types : Types) (attached : Bool) (events : List Event)
    (hrun : EachStep step (KeepsKinds kin) (begin types attached) events) :
    ((begin types attached).run events).world.store.InStep := by
  induction events using List.reverseRecOn with
  | nil => exact loadState_inStep List.nodup_nil Nat.one_pos
  | append_singleton events e ih =>
      rw [eachStep_append] at hrun
      rcases run_coherent types attached events with ⟨kind, hc⟩
      rw [run, List.foldl_append]
      exact step_inStep hc (run_tidy types attached events hrun.1) (ih hrun.1) hrun.2.1

/-- The indexes behind one event. -/
theorem step_indexed (hfam : ∀ c f, fam c f ≠ .nan) {e : Event} (hc : w.world.Coherent kind)
    (ht : w.world.Tidy (Kin.ofFamilies fam)) (hin : w.world.store.InStep)
    (hP : ∀ c, (w.world.types.info c).maintainedFields ≠ [] → P c)
    (h : w.world.Indexed P fam fills) (hcond : KeepsIndexed P fam fills w e) :
    (w.step e).world.Indexed P fam fills := by
  rcases step_world w e with ⟨p, fault, rfl, u, hends, hworld⟩ | ⟨hno, hworld⟩
  · rw [hworld]
    refine ⟨ends_indexed hfam hends hc.store ht.store hin hP h.store hcond, ?_, ?_⟩
    · rcases ends_backend hends with hsame | ⟨s₁, m, out, t, hcap, hstored⟩
      · dsimp only
        rw [hsame]
        exact h.sidecar
      · intro sc hsc
        -- Storage is a transaction on, and the sidecar is not.
        have hti := prepared_inStep hcap.prepares hc.store hin
        have hbackend : t.backend = w.world.store.backend := backend_of_prepares hcap.prepares
        have hold := (h.sidecar sc hsc).1
        have hnext : u.backend.marks.nextTid = w.world.store.backend.marks.nextTid + 1 := by
          rw [hstored, ← hbackend, ← hti.nextTid]
          rfl
        dsimp only
        rw [hnext]
        exact ⟨by omega, fun hcurrent => absurd hcurrent (by omega)⟩
    · intro c
      rcases ends_backend hends with hsame | ⟨s₁, m, out, t, hcap, hstored⟩
      · dsimp only
        rw [hsame]
        exact h.reads c
      · dsimp only
        rw [hstored]
        refine stored_readsAs (hcap.coherent hc.store) (hcap.batchOk hc.store) (fun d => ?_) c
        rw [backend_of_prepares hcap.prepares]
        exact h.reads d
  · rw [hworld]
    cases e with
    | closeAndOpen types =>
        exact World.reopen_indexed hc.store.storage
          (World.closed_indexed hc.store.storage h hin) hcond
    | crashAndOpen types => exact World.reopen_indexed hc.store.storage h.sidecar hcond
    | act p op =>
        rcases op.kinds with hop | ⟨fault, rfl⟩ | rfl
        · have hmoves := Relation.ReflTransGen.mono
            (fun _ _ he => (Or.inl he : Prepares w.world.types p _ _)) _ _
            (moves_op w.world.types p op hop w.world.store)
          have hb := backend_of_prepares hmoves
          refine ⟨prepared_indexed hfam hmoves hc.store ht.store hin h.store, ?_, ?_⟩
          · change World.SidecarOk P fam fills
              (finalState (op.run w.world.types p w.world.store)).backend _
            rw [hb]
            exact h.sidecar
          · intro c
            change Backend.ReadsAs fills c _
              (finalState (op.run w.world.types p w.world.store)).backend
            rw [hb]
            exact h.reads c
        · exact absurd rfl (hno p fault)
        · have hb := backend_discard w.world.store
          refine ⟨discard_indexed h.store, ?_, ?_⟩
          · change World.SidecarOk P fam fills w.world.store.discard.backend _
            rw [hb]
            exact h.sidecar
          · intro c
            change Backend.ReadsAs fills c _ w.world.store.discard.backend
            rw [hb]
            exact h.reads c

/-- A new directory has nothing to be indexed. -/
theorem begin_indexed (types : Types) (attached : Bool) :
    (begin types attached).world.Indexed P fam fills := by
  refine ⟨⟨⟨fun c ci hP hci => ?_, fun c blob hP hno hblob => ?_⟩, fun c rec hrec => ?_,
    fun c f hf k n n' hn => ?_⟩, fun sc hsc => ?_, fun c rec hrec => ?_⟩
  · cases hci
  · cases hblob
  · exact nomatch hrec.1
  · exact absurd hn List.not_mem_nil
  · cases hsc
  · exact nomatch hrec.1

/-- The worlds of a run whose events meet the condition. -/
theorem run_indexed (hfam : ∀ c f, fam c f ≠ .nan) (hP : ∀ c, P c) (types : Types)
    (attached : Bool) (events : List Event)
    (hrun : EachStep step (KeepsIndexed P fam fills) (begin types attached) events) :
    EachStep step (KeepsKinds (Kin.ofFamilies fam)) (begin types attached) events ∧
      ((begin types attached).run events).world.Indexed P fam fills := by
  induction events using List.reverseRecOn with
  | nil => exact ⟨trivial, begin_indexed types attached⟩
  | append_singleton events e ih =>
      rw [eachStep_append] at hrun
      rcases ih hrun.1 with ⟨hkeeps, hindexed⟩
      rcases run_coherent types attached events with ⟨kind, hc⟩
      have hone : KeepsIndexed P fam fills ((begin types attached).run events) e := hrun.2.1
      refine ⟨(eachStep_append _ _ _).mpr ⟨hkeeps, hone.keepsKinds, trivial⟩, ?_⟩
      rw [run, List.foldl_append]
      exact step_indexed hfam hc (run_tidy types attached events hkeeps)
        (run_inStep types attached events hkeeps) (fun c _ => hP c) hindexed hone

end Watched

end DataCrystal
