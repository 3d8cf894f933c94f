import DataCrystal.Phases

/-!
# Every Store Is Coherent

A store stays coherent through commits, failed commits, `discard` and the change
of sessions, so every store of a run is.

A commit that reaches storage decides the class of the OIDs it made durable:
`classed` extends the classes of the OIDs below the mark by those of the
captured new entities. Nothing below the mark changes its class, and that is
what a cached index, which outlives the session it was made in, relies on.

## Main definitions

* `classed`: The classes of the OIDs after a commit.
* `World.Coherent`: A coherent store next to a sidecar that agrees with it.

## Theorems

* `rollback_coherent`, `finish_coherent`, `discard_coherent`: The steps that are
  not `Edit` steps.
* `run_coherent`: Every world of a run is coherent.
-/

namespace DataCrystal

open ClassIndexes

namespace Store

variable {types : Types} {p : Principal} {kind : Nat → String} {s t : Store}

section Capturing

/-- A buffered deletion wins over a write, and a write over an insert. -/
theorem get?_pending (s : Store) (k o : Nat) : s.pending.get? k = some o ↔
    s.deleted.get? k = none ∧ (s.dirty.get? k = some o ∨
      s.dirty.get? k = none ∧ s.new.get? k = some o) := by
  have hdel : (!s.deleted.contains k) = true ↔ s.deleted.get? k = none := by
    rw [Bool.not_eq_true', Dict.contains, Option.isSome_eq_false_iff, Option.isNone_iff_eq_none]
  rw [pending, Dict.get?_filterKeys]
  by_cases hd : s.deleted.get? k = none
  · rw [if_pos (hdel.mpr hd)]
    simp only [hd, true_and]
    cases hk : s.dirty.get? k with
    | none =>
        rw [Dict.get?_foldl_set_of_not_mem]
        · simp
        · exact (Dict.not_mem_keys_iff _ _).mpr hk
    | some o' =>
        rw [Dict.get?_foldl_set_of_mem s.dirty.entries k o' s.dirty.nodup s.new
          ((Dict.get?_eq_some_iff _ _ _).mp hk)]
        simp
  · rw [if_neg (fun hc => hd (hdel.mp hc))]
    simp [hd]

/-- A captured entity, flipped to clean. -/
def flipped (types : Types) (e : Entity) : Entity :=
  { e with state := .clean, bound := e.bound || (types.info e.cls).frozen }

theorem flipped_flipped (e : Entity) : flipped types (flipped types e) = flipped types e := by
  simp [flipped]

/-- Flipping touches objects and the registry only. -/
theorem foldl_flipOne (types : Types) (es : List (Nat × Nat)) : ∀ s : Store, ∃ h r,
    es.foldl (flipOne types) s = { s with heap := h, registry := r } ∧ h.size = s.heap.size ∧
      (∀ n, h.get n = if n ∈ es.map Prod.snd then flipped types (s.heap.get n) else s.heap.get n) ∧
      ∀ k o, r.get? k = some o → s.registry.get? k = some o ∨ (k, o) ∈ es := by
  induction es with
  | nil => exact fun s => ⟨s.heap, s.registry, rfl, rfl, fun n => rfl, fun k o h => Or.inl h⟩
  | cons e es ih =>
      intro s
      rcases ih (flipOne types s e) with ⟨h, r, hfold, hsize, hget, hreg⟩
      refine ⟨h, r, by rw [List.foldl_cons, hfold]; rfl, hsize, fun n => ?_, fun k o hk => ?_⟩
      · have hone : (flipOne types s e).heap.get n =
            if n = e.2 then flipped types (s.heap.get e.2) else s.heap.get n :=
          get_modifyEntity s e.2 (flipped types) n
        rw [hget, hone]
        by_cases hne : n = e.2
        · simp [hne, flipped_flipped]
        · simp only [List.map_cons, List.mem_cons, hne, false_or, if_false]
      · rcases hreg k o hk with hk | hk
        · by_cases hke : k = e.1
          · have ho : e.2 = o := by
              rw [hke] at hk
              exact Option.some.inj ((Dict.get?_set_self _ _ _).symm.trans hk)
            exact Or.inr (by rw [hke, ← ho]; exact List.mem_cons_self)
          · exact Or.inl ((Dict.get?_set_ne _ _ hke).symm.trans hk)
        · exact Or.inr (List.mem_cons_of_mem _ hk)

/-- Encoding hands out ids and adds shapes above the known ones. -/
theorem encodes_coherent (hstep : Encodes types s t) (h : Coherent kind s) : Coherent kind t := by
  have hrows := encodes_rowsOk s t hstep ⟨h.storage.rowsUnique, h.storage.rowsBelow⟩
  cases hstep with
  | blobOid =>
      have hle : s.alloc.nextOid ≤ s.alloc.nextOid + 1 := Nat.le_succ _
      exact ⟨h.storage.congr rfl rfl rfl hle rfl, h.objects.congr le_rfl (fun _ => ⟨rfl, rfl, rfl⟩)
        rfl rfl rfl (fun _ _ hk => hk) rfl hle, h.holders.congr rfl rfl,
        h.root.congr rfl rfl rfl fun _ _ _ hn => ⟨hn, rfl⟩⟩
  | shape c =>
      refine ⟨⟨h.storage.allocOid, fun row hrow => ?_, hrows.1, hrows.2, h.storage.marksBelow,
        h.storage.durable, h.storage.records⟩, h.objects.congr le_rfl (fun _ => ⟨rfl, rfl, rfl⟩) rfl
        rfl rfl (fun _ _ hk => hk) rfl le_rfl, h.holders.congr rfl rfl,
        h.root.congr rfl rfl rfl fun _ _ _ hn => ⟨hn, rfl⟩⟩
      exact List.mem_append_left _ (h.storage.rowsKnown row hrow)

theorem prepares_coherent (hstep : Prepares types p s t) (h : Coherent kind s) : Coherent kind t :=
  hstep.elim (fun he => edit_coherent he h) fun he => encodes_coherent he h

variable {s₁ : Store} {m : IndexManager} {out : EncodedBatch}

/-- Building indexes on first use is a run of edits. -/
theorem edits_of_ensures {m : IndexManager}
    (hm : Relation.ReflTransGen (Ensures types s.backend s.lineageFor) s.index m) :
    Relation.ReflTransGen (Edit types p) s { s with index := m } := by
  induction hm with
  | refl => exact .refl
  | @tail m₁ m₂ _ hlast ih => exact ih.tail (Edit.ensures (s := { s with index := m₁ }) hlast)

/-- The store after discovery. -/
theorem Captured.discovered_coherent (hc : Captured types p s s₁ m out t) (h : Coherent kind s) :
    Coherent kind s₁ :=
  reflTransGen_invariant (I := Coherent kind) (fun _ _ hg => grow_coherent hg) hc.grown h

/-- The store a batch is captured in. -/
theorem Captured.coherent (hc : Captured types p s s₁ m out t) (h : Coherent kind s) :
    Coherent kind t := by
  have h₁ := hc.discovered_coherent h
  have h₂ : Coherent kind { s₁ with index := m } := by
    exact reflTransGen_invariant (I := Coherent kind) (fun _ _ he => edit_coherent he)
      (edits_of_ensures (p := p) hc.ensured) h₁
  exact reflTransGen_invariant (I := Coherent kind) (fun _ _ he => encodes_coherent he) hc.encodes h₂

/-- A new entity has an OID at or above the mark, every other one below it. -/
theorem Coherent.new_disjoint (h : Coherent kind s) {k o : Nat} (hnew : s.new.get? k = some o) :
    s.dirty.get? k = none ∧ s.deleted.get? k = none := by
  have hle := (h.objects.isNew k o hnew).2.2
  constructor
  · cases hd : s.dirty.get? k with
    | none => rfl
    | some n =>
        have hn := h.objects.isDirty k n hd
        exact absurd (h.objects.settled n k (Or.inr hn.2) hn.1).1 (Nat.not_lt.mpr hle)
  · cases hd : s.deleted.get? k with
    | none => rfl
    | some d => exact absurd (h.objects.isDeleted k d.1 d.2 hd).1.1 (Nat.not_lt.mpr hle)

/-- What a commit writes: the new entities, and the changed ones that are not to
    be deleted. -/
theorem Coherent.mem_pending (h : Coherent kind s) (k o : Nat) : (k, o) ∈ s.pending.entries ↔
    s.new.get? k = some o ∨ s.dirty.get? k = some o ∧ s.deleted.get? k = none := by
  rw [← Dict.get?_eq_some_iff, get?_pending]
  constructor
  · rintro ⟨hdel, hd | ⟨hd, hn⟩⟩
    · exact Or.inr ⟨hd, hdel⟩
    · exact Or.inl hn
  · rintro (hn | ⟨hd, hdel⟩)
    · exact ⟨(h.new_disjoint hn).2, Or.inr ⟨(h.new_disjoint hn).1, hn⟩⟩
    · exact ⟨hdel, Or.inl hd⟩

/-- A pending entity carries its OID and is new or changed. -/
theorem Coherent.pending_object (h : Coherent kind s) {k o : Nat}
    (hp : (k, o) ∈ s.pending.entries) : (s.heap.get o).oid = some k ∧
      ((s.heap.get o).state = .new ∧ s.new.get? k = some o ∨
        (s.heap.get o).state = .dirty ∧ s.dirty.get? k = some o) := by
  rcases (h.mem_pending k o).mp hp with hn | ⟨hd, hdel⟩
  · exact ⟨(h.objects.isNew k o hn).1, Or.inl ⟨(h.objects.isNew k o hn).2.1, hn⟩⟩
  · exact ⟨(h.objects.isDirty k o hd).1, Or.inr ⟨(h.objects.isDirty k o hd).2, hd⟩⟩

end Capturing

section Refused

/-- Buffering captured entities again touches their state and the two buffers. `g`
    is the state each object is taken back to. -/
theorem foldl_restoreOne (s : Store) (hnew : s.new = Dict.empty) (hdirty : s.dirty = Dict.empty)
    (g : Nat → EntityState) (fl : List (Nat × Nat × EntityState)) :
    (fl.map Prod.fst).Nodup →
    (∀ e ∈ fl, (if e.2.2 = .new then EntityState.new else .dirty) = g e.2.1) →
    ∃ h n d, fl.foldl restoreOne s = { s with heap := h, new := n, dirty := d } ∧
      h.size = s.heap.size ∧
      (∀ o, h.get o = if o ∈ fl.map fun e => e.2.1 then { s.heap.get o with state := g o }
        else s.heap.get o) ∧
      (∀ k o, n.get? k = some o ↔ (k, o, .new) ∈ fl) ∧
      ∀ k o, d.get? k = some o ↔ ∃ st, st ≠ .new ∧ (k, o, st) ∈ fl := by
  -- By induction from the end: the last entry of a key decides, and keys are distinct.
  induction fl using List.reverseRecOn with
  | nil =>
      intro _ _
      refine ⟨s.heap, s.new, s.dirty, rfl, rfl, fun o => rfl, fun k o => ?_, fun k o => ?_⟩
      · rw [hnew]
        simp
      · rw [hdirty]
        simp
  | append_singleton fl e ih =>
      intro hnd hg
      rcases e with ⟨ke, oe, ste⟩
      rw [List.map_append, List.nodup_append] at hnd
      rcases ih hnd.1 fun e' he' => hg e' (List.mem_append_left _ he') with
        ⟨h, n, d, hfold, hsize, hget, hn, hd⟩
      have hfresh : ∀ o st, (ke, o, st) ∉ fl := fun o st hmem =>
        hnd.2.2 ke (List.mem_map_of_mem (f := Prod.fst) hmem) ke (by simp) rfl
      -- States are a function of the object, so an object listed twice is restored once.
      have hgets : ∀ st, st = g oe → ∀ o, (h.set oe { h.get oe with state := st }).get o =
          if o ∈ (fl ++ [(ke, oe, ste)]).map fun e => e.2.1 then { s.heap.get o with state := g o }
          else s.heap.get o := by
        intro st hst o
        rw [Heap.get_set, hst]
        simp only [hget, List.map_append, List.map_cons, List.map_nil, List.mem_append,
          List.mem_singleton]
        by_cases ho : o = oe
        · rw [if_pos ho, if_pos (Or.inr ho), ho]
          split <;> rfl
        · simp only [ho, or_false, if_false]
      have hstate := hg (ke, oe, ste) (List.mem_append_right _ List.mem_cons_self)
      rw [List.foldl_append, List.foldl_cons, List.foldl_nil, hfold, restoreOne]
      -- A buffer gains the entity at a key it did not have, or stays as it is.
      by_cases hst : ste = .new
      · rw [if_pos hst] at hstate ⊢
        refine ⟨_, _, _, rfl, hsize, hgets .new hstate, fun k o => ?_, fun k o => ?_⟩
        · rw [Dict.get?_set]
          by_cases hk : k = ke
          · simp [hk, hfresh, hst, eq_comm]
          · simp [hk, hn]
        · rw [Dict.get?_erase]
          by_cases hk : k = ke
          · simp +contextual [hk, hfresh, hst]
          · simp [hk, hd]
      · rw [if_neg hst] at hstate ⊢
        refine ⟨_, _, _, rfl, hsize, hgets .dirty hstate, fun k o => ?_, fun k o => ?_⟩
        · refine (hn k o).trans ?_
          rw [List.mem_append, List.mem_singleton]
          refine ⟨Or.inl, fun hmem => hmem.resolve_right fun heq => hst ?_⟩
          exact (congrArg (fun e => e.2.2) heq).symm
        · rw [Dict.get?_set]
          by_cases hk : k = ke
          · simp [hk, hfresh, hst, eq_comm]
          · simp [hk, hd]

/-- Storing the entries of a dictionary into an empty one. -/
theorem get?_refill {α : Type} (d : Dict Nat α) (k : Nat) :
    (d.entries.foldl (fun d e => d.set e.1 e.2) Dict.empty).get? k = d.get? k := by
  cases hk : d.get? k with
  | none =>
      rw [Dict.get?_foldl_set_of_not_mem _ _ _ ((Dict.not_mem_keys_iff _ _).mpr hk)]
      rfl
  | some v =>
      exact Dict.get?_foldl_set_of_mem _ k v d.nodup _ ((Dict.get?_eq_some_iff _ _ _).mp hk)

variable {refs : List RefEntry} {out : EncodedBatch}

/-- The store after a captured batch was refused, next to the one it was captured
    in: the captured entities are buffered again, and registered. -/
theorem rollback_spec (types : Types) (refs : List RefEntry) (out : EncodedBatch)
    (h : Coherent kind t) : ∃ hp r n d dl,
    p2Rollback (t.captureOf types refs out) (t.settle types) =
      { t with
        heap := hp, registry := r, new := n, dirty := d, deleted := dl
        birthLabels := Dict.empty, cancelledNew := Dict.empty } ∧
      hp.size = t.heap.size ∧ (∀ o, SameLife (t.heap.get o) (hp.get o)) ∧
      (∀ o, (hp.get o).labels = (t.heap.get o).labels ∧ (hp.get o).data = (t.heap.get o).data ∧
        (hp.get o).stampedBy = (t.heap.get o).stampedBy) ∧
      (∀ k o, n.get? k = some o ↔ t.new.get? k = some o) ∧
      (∀ k o, d.get? k = some o ↔ t.dirty.get? k = some o ∧ t.deleted.get? k = none) ∧
      (∀ k, dl.get? k = t.deleted.get? k) ∧
      ∀ k o, r.get? k = some o → (t.heap.get o).oid = some k := by
  rcases foldl_flipOne types t.pending.entries t with ⟨hp, r, hflip, hsize, hget, hreg⟩
  -- Settling is one flip of the pending entities plus five empty buffers, so every other field is
  -- read off the flipped fold.
  have hsettle : t.settle types = { t with
      heap := hp, registry := r, alloc := { t.alloc with nextTid := t.alloc.nextTid + 1 }
      new := Dict.empty, dirty := Dict.empty, deleted := Dict.empty, birthLabels := Dict.empty
      cancelledNew := Dict.empty } := by
    rw [settle, hflip]
  -- Restoring runs over the captured entities with the states they had before the flip; only the
  -- two live states ever occur in a pending list, which is what the fold needs.
  rcases foldl_restoreOne { t.settle types with alloc := t.alloc } (by rw [hsettle]) (by rw [hsettle])
    (fun o => (t.heap.get o).state)
    (t.pending.entries.map fun e => (e.1, e.2, (t.heap.get e.2).state))
    (by rw [List.map_map]; exact t.pending.nodup) (by
      intro e he
      rcases List.mem_map.mp he with ⟨⟨k, o⟩, hko, rfl⟩
      rcases (h.pending_object hko).2 with ⟨hst, _⟩ | ⟨hst, _⟩
      · simp [hst]
      · simp [hst]) with ⟨hp', n, d, hfold, hsize', hget', hn, hd⟩
  -- The two folds together leave an entity as it was, its birth labels apart.
  have hobj : ∀ o, hp'.get o = if o ∈ t.pending.entries.map Prod.snd then
      { flipped types (t.heap.get o) with state := (t.heap.get o).state } else t.heap.get o := by
    intro o
    rw [hget', hsettle, List.map_map]
    change (if o ∈ t.pending.entries.map Prod.snd then _ else _) = _
    by_cases ho : o ∈ t.pending.entries.map Prod.snd
    · rw [if_pos ho, if_pos ho, hget, if_pos ho]
    · rw [if_neg ho, if_neg ho, hget, if_neg ho]
  -- A captured triple is a pending entry together with its old state.
  have hmem : ∀ k o st, (k, o, st) ∈ t.pending.entries.map (fun e => (e.1, e.2,
      (t.heap.get e.2).state)) ↔ (k, o) ∈ t.pending.entries ∧ (t.heap.get o).state = st := by
    intro k o st
    constructor
    · intro he
      rcases List.mem_map.mp he with ⟨⟨k', o'⟩, hko, heq⟩
      cases heq
      exact ⟨hko, rfl⟩
    · rintro ⟨hko, rfl⟩
      exact List.mem_map.mpr ⟨(k, o), hko, rfl⟩
  refine ⟨hp', r, n, d, t.deleted.entries.foldl (fun d e => d.set e.1 e.2) Dict.empty, ?_, ?_, ?_,
    ?_, ?_, ?_, get?_refill t.deleted, ?_⟩
  · have hrun : p2Rollback (t.captureOf types refs out) (t.settle types) =
        (fun s' : Store => { s' with
          deleted := t.deleted.entries.foldl (fun d e => d.set e.1 e.2) s'.deleted })
        ((t.pending.entries.map fun e => (e.1, e.2, (t.heap.get e.2).state)).foldl restoreOne
          { t.settle types with alloc := t.alloc }) := by
      rw [hsettle]
      rfl
    rw [hrun, hfold, hsettle]
  · rw [hsize', hsettle]
    exact hsize
  · intro o
    rw [hobj]
    split <;> exact ⟨rfl, rfl, rfl⟩
  · intro o
    rw [hobj]
    split <;> exact ⟨rfl, rfl, rfl⟩
  · intro k o
    rw [hn, hmem]
    constructor
    -- A pending entity that was NEW is back in the new buffer, and nothing else is.
    · rintro ⟨hko, hst⟩
      rcases (h.pending_object hko).2 with ⟨_, hnew⟩ | ⟨hst', _⟩
      · exact hnew
      · rw [hst] at hst'
        simp at hst'
    · intro hnew
      exact ⟨(h.mem_pending k o).mpr (Or.inl hnew), (h.objects.isNew k o hnew).2.1⟩
  · intro k o
    rw [hd]
    simp only [hmem]
    constructor
    -- One that was DIRTY and is not deleted is back in the dirty buffer.
    · rintro ⟨st, hst, hko, rfl⟩
      rcases (h.mem_pending k o).mp hko with hnew | hdirty
      · exact absurd (h.objects.isNew k o hnew).2.1 hst
      · exact hdirty
    · rintro ⟨hdirty, hdel⟩
      refine ⟨.dirty, by decide, (h.mem_pending k o).mpr (Or.inr ⟨hdirty, hdel⟩), ?_⟩
      exact (h.objects.isDirty k o hdirty).2
  · intro k o hk
    rcases hreg k o hk with hk | hk
    · exact h.objects.registered k o hk
    · exact (h.pending_object hk).1

theorem rollback_coherent (h : Coherent kind t) :
    Coherent kind (p2Rollback (t.captureOf types refs out) (t.settle types)) := by
  rcases rollback_spec types refs out h with
    ⟨hp, r, n, d, dl, heq, hsize, hlife, -, hn, hd, hdl, hr⟩
  rw [heq]
  refine ⟨h.storage.congr rfl rfl rfl le_rfl rfl, h.objects.mono (by rw [hsize]) hlife hn
    (fun k o hk => ((hd k o).mp hk).1) (fun k e hk => (hdl k) ▸ hk) hr rfl le_rfl,
    h.holders.congr rfl rfl, h.root.congr rfl rfl rfl fun k o _ hk => ?_⟩
  exact ⟨(hn k o).mpr hk, (hlife o).1⟩

end Refused

section Stored

variable {s₁ : Store} {m : IndexManager} {out : EncodedBatch} {refs : List RefEntry}

/-- Encoding leaves the objects and the buffers alone, so the batch is about the
    store it was captured in. -/
theorem Captured.batchOk (hc : Captured types p s s₁ m out t) (h : Coherent kind s) :
    BatchOk types t t.pending.entries t out := by
  have h₁ := hc.discovered_coherent h
  have hb := encodePending_spec (s := { s₁ with index := m }) ⟨h₁.storage.rowsUnique, h₁.storage.rowsBelow⟩ hc.encoded
  rcases encodes_encodesTo hc.encodes with ⟨a, rows, rfl, _⟩
  exact ⟨hb.oids, hb.encoded, hb.newTypes⟩

/-- The classes of the OIDs after a commit. -/
def classed (kind : Nat → String) (t : Store) (k : Nat) : String :=
  match t.new.get? k with
  | some o => (t.heap.get o).cls
  | none => kind k

theorem classed_new {k o : Nat} (hk : t.new.get? k = some o) :
    classed kind t k = (t.heap.get o).cls := by
  rw [classed, hk]

theorem classed_below (h : Coherent kind t) {k : Nat} (hk : k < t.backend.marks.nextOid) :
    classed kind t k = kind k := by
  rw [classed]
  cases hnew : t.new.get? k with
  | none => rfl
  | some o => exact absurd hk (Nat.not_lt.mpr (h.objects.isNew k o hnew).2.2)

/-- Below the mark before a commit means below the mark after it. -/
theorem Known.stored (h : Coherent kind t) {c : String} {k : Nat} (hk : Known kind t c k) :
    Known (classed kind t) (applyBatch (t.captureOf types refs out).batch (t.settle types)) c k :=
  ⟨Nat.lt_of_lt_of_le hk.1 h.storage.allocOid, by rw [classed_below h hk.1]; exact hk.2⟩

/-- A captured entity is below the mark once its batch is stored. -/
theorem known_pending (h : Coherent kind t) {k o : Nat} (hp : (k, o) ∈ t.pending.entries) :
    Known (classed kind t) (applyBatch (t.captureOf types refs out).batch (t.settle types))
      (t.heap.get o).cls k := by
  rcases h.pending_object hp with ⟨hoid, ⟨hst, hnew⟩ | ⟨hst, _⟩⟩
  · exact ⟨(h.objects.newOf o k hst hoid).2, (classed_new hnew).symm⟩
  · exact (h.objects.settled o k (Or.inr hst) hoid).stored h

theorem stored_storageOk (h : Coherent kind t) (hb : BatchOk types t t.pending.entries t out) :
    StorageOk (classed kind t)
      (applyBatch (t.captureOf types refs out).batch (t.settle types)) := by
  rcases foldl_flipOne types t.pending.entries t with ⟨hp, r, hflip, _⟩
  have htypes : (applyBatch (t.captureOf types refs out).batch (t.settle types)).backend.types =
      t.backend.types ++ out.newTypes := by
    simp only [applyBatch, settle, hflip, captureOf, buildBatch, Backend.apply]
  have hrows : (applyBatch (t.captureOf types refs out).batch (t.settle types)).typeRows =
      t.typeRows := by
    simp only [applyBatch, settle, hflip]
  have hcids : (applyBatch (t.captureOf types refs out).batch (t.settle types)).durableCids =
      t.durableCids := by
    simp only [applyBatch, settle, hflip]
  -- A row of storage was known, and so is a row of the batch.
  have hknown : ∀ row ∈ t.backend.types ++ out.newTypes, row ∈ t.typeRows := by
    intro row hrow
    rcases List.mem_append.mp hrow with hrow | hrow
    · exact h.storage.rowsKnown row hrow
    · exact hb.newTypes row hrow
  constructor
  · simp only [applyBatch, settle, hflip]
    exact le_rfl
  · rw [htypes, hrows]
    exact hknown
  · rw [hrows]
    exact h.storage.rowsUnique
  · rw [hrows]
    simp only [applyBatch, settle, hflip]
    exact h.storage.rowsBelow
  · rw [htypes]
    exact fun row hrow => h.storage.rowsBelow row (hknown row hrow)
  · rw [hcids, htypes]
    intro cid hcid
    rcases h.storage.durable cid hcid with ⟨row, hrow, heq⟩
    exact ⟨row, List.mem_append_left _ hrow, heq⟩
  · intro k rec hrec
    rw [htypes]
    have hrec' : (t.backend.apply (t.buildBatch out)).objects.get? k = some rec := by
      simp only [applyBatch, settle, hflip] at hrec
      exact hrec
    rcases (Backend.get?_apply_eq_some hrec').2 with ⟨hmem, hoid⟩ | ⟨_, hold⟩
    · -- a record of the batch is filed under a shape of its class
      rcases List.mem_map.mp hmem with ⟨r₀, hr₀, rfl⟩
      rcases hb.encoded r₀ hr₀ with ⟨o, ho, hrow, _, hdurable⟩
      have hk : r₀.1 = k := hoid
      rw [hk] at ho
      have hkn : Known (classed kind t) (applyBatch (t.captureOf types refs out).batch
          (t.settle types)) (t.heap.get o).cls k := known_pending h ho
      refine ⟨hoid, hkn.1, (types.info (t.heap.get o).cls).fieldNames, ?_⟩
      rw [← hkn.2, List.mem_append]
      -- The row of its cid is durable or goes along with the batch.
      rcases hdurable with hcid | ⟨row, hrow', heq⟩
      · rcases h.storage.durable _ hcid with ⟨row, hrow', heq⟩
        have hsame := h.storage.rowsUnique row (h.storage.rowsKnown row hrow') _ hrow heq
        exact Or.inl (hsame ▸ hrow')
      · have hsame := h.storage.rowsUnique row (hb.newTypes row hrow') _ hrow heq
        exact Or.inr (hsame ▸ hrow')
    -- A record that was there keeps its row, and its OID its class.
    · rcases h.storage.records k rec hold with ⟨hoid, hlt, names, hrow⟩
      refine ⟨hoid, Nat.lt_of_lt_of_le hlt h.storage.allocOid, names, ?_⟩
      rw [classed_below h hlt]
      exact List.mem_append_left _ hrow

/-- A row told apart by its id is the one a search finds. -/
theorem find?_row {rows : List TypeRow} {row : TypeRow} (h : row ∈ rows)
    (hu : ∀ row ∈ rows, ∀ row' ∈ rows, row.1 = row'.1 → row = row') :
    (rows.find? fun r => r.1 = row.1) = some row := by
  cases hfind : rows.find? fun r => r.1 = row.1 with
  | none =>
      rw [List.find?_eq_none] at hfind
      exact absurd (decide_eq_true rfl) (hfind row h)
  | some row' =>
      have hcid : row'.1 = row.1 := by simpa using List.find?_some hfind
      rw [hu row' (List.mem_of_find?_eq_some hfind) row h hcid]

theorem StorageOk.types_unique (h : StorageOk kind s) : ∀ row ∈ s.backend.types,
    ∀ row' ∈ s.backend.types, row.1 = row'.1 → row = row' :=
  fun row hrow row' hrow' => h.rowsUnique row (h.rowsKnown row hrow) row' (h.rowsKnown row' hrow')

/-- A store and its storage read a record's shape alike. -/
theorem StorageOk.shape (h : StorageOk kind s) {k : Nat} {rec : StoredRecord}
    (hrec : s.backend.objects.get? k = some rec) :
    s.persistedFields rec.cid = s.backend.fieldsOf rec.cid ∧
      s.backend.typenameOf rec.cid = some (kind k) := by
  rcases h.records k rec hrec with ⟨_, _, names, hrow⟩
  have hstored := find?_row hrow h.types_unique
  have hlive := find?_row (h.rowsKnown _ hrow) h.rowsUnique
  refine ⟨?_, ?_⟩
  · rw [persistedFields, Backend.fieldsOf, hlive, hstored]
  · rw [Backend.typenameOf, hstored]
    rfl

/-- Up to its capture a batch changes ids, shapes and indexes only. -/
theorem Captured.frame (hc : Captured types p s s₁ m out t) : ∃ a rows,
    t = { s₁ with index := m, alloc := a, typeRows := s₁.typeRows ++ rows } ∧
      a.nextTid = s₁.alloc.nextTid := by
  rcases encodes_encodesTo hc.encodes with ⟨a, rows, ht, _, _, htid⟩
  exact ⟨a, rows, ht, htid⟩

/-- A record a commit leaves behind is an old one or the encoding of a pending
    entity. -/
theorem stored_record (h : Store.Coherent kind t) (hb : BatchOk types t t.pending.entries t out)
    {k : Nat} {rec : StoredRecord}
    (hrec : (t.backend.apply (t.buildBatch out)).objects.get? k = some rec) :
    (t.backend.objects.get? k = some rec ∧ t.deleted.get? k = none ∧ k ∉ t.pending.keys) ∨
      ∃ o, (k, o) ∈ t.pending.entries ∧
        t.EncodedAs o (t.info types o).specs rec.payload ∧
        (t.backend.apply (t.buildBatch out)).fieldsOf rec.cid = (t.info types o).fieldNames ∧
        rec.tid = t.alloc.nextTid := by
  rcases Backend.get?_apply_eq_some hrec with ⟨hdel, ⟨hmem, hoid⟩ | ⟨hother, hold⟩⟩
  -- A record of the batch: the fields of its shape are those of the row it is filed under.
  · rcases List.mem_map.mp hmem with ⟨r₀, hr₀, rfl⟩
    rcases hb.encoded r₀ hr₀ with ⟨o, ho, hrow, henc, _⟩
    have hk : r₀.1 = k := hoid
    rw [hk] at ho
    have hstorage : StorageOk (classed kind t)
        (applyBatch (t.captureOf types [] out).batch (t.settle types)) := stored_storageOk h hb
    rcases foldl_flipOne types t.pending.entries t with ⟨hp, r, hflip, _⟩
    simp only [applyBatch, settle, hflip] at hstorage
    rcases hstorage.records k _ hrec with ⟨_, _, names, hstored⟩
    have hsame := hstorage.rowsUnique _ (hstorage.rowsKnown _ hstored) _ hrow rfl
    have hnames : names = (t.info types o).fieldNames := congrArg (fun row => row.2.2) hsame
    have hfind := find?_row hstored hstorage.types_unique
    refine Or.inr ⟨o, ho, henc, ?_, rfl⟩
    have hfind' : ((t.backend.apply (t.buildBatch out)).types.find? fun row => row.1 = r₀.2.1) =
        some (r₀.2.1, classed kind t k, names) := hfind
    rw [Backend.fieldsOf, hfind', ← hnames]
    rfl
  -- A record from before was neither deleted nor written.
  · refine Or.inl ⟨hold, ?_, fun hk => ?_⟩
    · exact (Dict.not_mem_keys_iff _ _).mp hdel
    · rw [Dict.keys, ← hb.oids] at hk
      rcases List.mem_map.mp hk with ⟨r, hr, rfl⟩
      exact hother _ (List.mem_map_of_mem hr) rfl

theorem stored_objectsOk (h : Coherent kind t) : ObjectsOk (classed kind t)
    (applyBatch (t.captureOf types refs out).batch (t.settle types)) := by
  rcases foldl_flipOne types t.pending.entries t with ⟨hp, r, hflip, hsize, hget, hreg⟩
  have hstored : ∀ {c k}, Known kind t c k → Known (classed kind t)
      (applyBatch (t.captureOf types refs out).batch (t.settle types)) c k := fun hk => hk.stored h
  -- What was captured is stored now.
  have hcaptured : ∀ {k o}, (k, o) ∈ t.pending.entries → Known (classed kind t)
      (applyBatch (t.captureOf types refs out).batch (t.settle types)) (t.heap.get o).cls k :=
    fun hko => known_pending h hko
  simp only [applyBatch, settle, hflip] at hstored hcaptured ⊢
  have hoid : ∀ n, (hp.get n).oid = (t.heap.get n).oid := by
    intro n
    rw [hget]
    split <;> rfl
  have hcls : ∀ n, (hp.get n).cls = (t.heap.get n).cls := by
    intro n
    rw [hget]
    split <;> rfl
  -- The buffers are empty, and what was pending is CLEAN and registered.
  constructor
  · intro o k ho
    rw [hoid] at ho
    rw [hsize]
    exact h.objects.bounded o k ho
  · intro o ho
    rw [hoid] at ho
    rw [hget, if_neg]
    · exact h.objects.fresh o ho
    · intro hmem
      rcases List.mem_map.mp hmem with ⟨⟨k, o'⟩, hko, rfl⟩
      rw [(h.pending_object hko).1] at ho
      simp at ho
  · exact fun k o hk => by simp at hk
  · -- a new entity with an OID was pending, so it is clean by now
    intro o k hst ho
    rw [hoid] at ho
    rw [hget] at hst
    split at hst
    · simp [flipped] at hst
    · rename_i hmem
      have hnew := (h.objects.newOf o k hst ho).1
      exact absurd (List.mem_map.mpr ⟨(k, o), (h.mem_pending k o).mpr (Or.inl hnew), rfl⟩) hmem
  -- A settled entity was so before, or it was pending.
  · intro o k hst ho
    rw [hoid] at ho
    rw [hcls]
    by_cases hmem : o ∈ t.pending.entries.map Prod.snd
    · rcases List.mem_map.mp hmem with ⟨⟨k', o'⟩, hko, rfl⟩
      have hk : k' = k := Option.some.inj ((h.pending_object hko).1.symm.trans ho)
      rw [← hk]
      exact hcaptured hko
    · rw [hget, if_neg hmem] at hst
      exact hstored (h.objects.settled o k hst ho)
  · exact fun k o hk => by simp at hk
  · exact fun k c obj hk => by simp at hk
  · intro k o hk
    rw [hoid]
    rcases hreg k o hk with hk | hk
    · exact h.objects.registered k o hk
    · exact (h.pending_object hk).1

/-- A store is coherent right after its batch was stored. -/
theorem stored_coherent (h : Coherent kind t) (hb : BatchOk types t t.pending.entries t out) :
    Coherent (classed kind t)
      (applyBatch (t.captureOf types refs out).batch (t.settle types)) := by
  have hstored : ∀ {c k}, Known kind t c k → Known (classed kind t)
      (applyBatch (t.captureOf types refs out).batch (t.settle types)) c k := fun hk => hk.stored h
  have hroot : ∀ k, t.rootOid = some k → Known (classed kind t)
      (applyBatch (t.captureOf types refs out).batch (t.settle types)) rootCls k := by
    intro k hk
    rcases h.root.root k hk with hknown | ⟨_, o, ho, hcls⟩
    · exact hstored hknown
    · rw [← hcls]
      exact known_pending h ((h.mem_pending k o).mpr (Or.inl ho))
  refine ⟨stored_storageOk h hb, stored_objectsOk h, ?_, ?_⟩
  all_goals
    rcases foldl_flipOne types t.pending.entries t with ⟨hp, r, hflip, _⟩
    simp only [applyBatch, settle, hflip] at hstored hroot ⊢
  · exact ⟨fun c ci hci => (h.holders.built c ci hci).mono fun k hk => hstored hk,
      fun blobs c blob hblobs hblob f key k hk => hstored (h.holders.cached blobs c blob hblobs
        hblob f key k hk)⟩
  · exact ⟨fun k hk => Or.inl (hroot k hk), hroot⟩

end Stored

section Finishing

variable {cap : Capture}

/-- Folding the written entities into the indexes names their OIDs only, also
    when it raises half way. -/
theorem holders_apply (h : HoldersOk kind s) (entries : List IndexEntry)
    (hk : ∀ e ∈ entries, Known kind s e.2.1 e.1) :
    HoldersOk kind { s with index := finalState (IndexManager.apply entries s.index) } := by
  have hkeeps : Keeps (fun m => HoldersOk kind { s with index := m })
      (IndexManager.apply entries) := by
    refine moves_bind (moves_modify fun m hm => ?_) fun _ =>
      moves_forM_mem entries fun e he => moves_get_bind fun m => ?_
    · rw [IndexManager.invalidateReverseBlob]
      split
      · exact ⟨hm.built, hm.cached⟩
      · exact hm
    · cases hci : m.byCls.get? e.2.1 with
      | none =>
          refine .single fun hm => ⟨hm.built, fun blobs c blob hblobs hblob => ?_⟩
          rcases Option.map_eq_some_iff.mp hblobs with ⟨blobs', hblobs', rfl⟩
          exact hm.cached blobs' c blob hblobs' (get?_erase_some hblob).1
      | some ci =>
          refine .single fun hm => ?_
          have hzoom := finalState_zoom (fun _ => ci) (IndexManager.setCls e.2.1)
            (ClassIndexes.insert e.1 e.2.2) m
          change HoldersOk kind { s with index := finalState (zoom _ _ _ m) }
          rw [hzoom]
          refine HoldersOk.setCls (s := { s with index := m }) hm ?_
          exact (keeps_insert (hk e he) e.2.2).final (hm.built e.2.1 ci hci)
  exact hkeeps.final h

/-- The references and the deletions of a commit only take away from the maps. -/
theorem holders_foldRest (h : HoldersOk kind s) (cap : Capture) :
    HoldersOk kind { s with index := foldRest cap s.index } := by
  -- References are folded apart from the class indexes.
  have hreverse : ∀ (m : IndexManager) refs, (m.applyReverse refs).byCls = m.byCls ∧
      (m.applyReverse refs).cacheBlobs = m.cacheBlobs := by
    intro m refs
    rw [IndexManager.applyReverse]
    split
    · exact ⟨rfl, rfl⟩
    · simp only [IndexManager.withReverseRefs]
      split <;> exact ⟨rfl, rfl⟩
  have hremove : ∀ (m : IndexManager) ds, (m.removeReverse ds).byCls = m.byCls ∧
      (m.removeReverse ds).cacheBlobs = m.cacheBlobs := by
    intro m ds
    simp only [IndexManager.removeReverse, IndexManager.withReverseRefs,
      IndexManager.invalidateReverseBlob]
    repeat' split
    all_goals exact ⟨rfl, rfl⟩
  -- Deletions, one class index at a time.
  have hdeletes : ∀ (ds : List (Nat × String)) (m : IndexManager),
      HoldersOk kind { s with index := m } →
      HoldersOk kind { s with index := m.applyDeletes ds } := by
    intro ds
    induction ds with
    | nil => exact fun m hm => hm
    | cons d ds ih =>
        intro m hm
        refine ih (m.applyDelete d) ?_
        rw [IndexManager.applyDelete]
        cases hci : m.byCls.get? d.2 with
        | none =>
            refine ⟨hm.built, fun blobs c blob hblobs hblob => ?_⟩
            rcases Option.map_eq_some_iff.mp hblobs with ⟨blobs', hblobs', rfl⟩
            exact hm.cached blobs' c blob hblobs' (get?_erase_some hblob).1
        | some ci =>
            exact HoldersOk.setCls (s := { s with index := m }) hm
              (holdersIn_remove (hm.built d.2 ci hci) d.1)
  -- Inserts are behind this step, so what is left is references and deletions.
  have hstart : HoldersOk kind { s with index := s.index.applyReverse cap.refEntries } :=
    ⟨fun c ci hci => h.built c ci ((hreverse _ _).1 ▸ hci),
      fun blobs c blob hb => h.cached blobs c blob ((hreverse _ _).2 ▸ hb)⟩
  have hmid := hdeletes (cap.deletes.map fun d => (d.1, d.2.1)) _ hstart
  exact ⟨fun c ci hci => hmid.built c ci ((hremove _ _).1 ▸ hci),
    fun blobs c blob hb => hmid.cached blobs c blob ((hremove _ _).2 ▸ hb)⟩

/-- Nothing is buffered. -/
def Idle (s : Store) : Prop := s.new = Dict.empty ∧ s.dirty = Dict.empty ∧ s.deleted = Dict.empty

/-- The identity of a deleted entity ends; the OID it carries stays its own. -/
theorem dropDeleted_coherent (h : Coherent kind s) (hidle : Idle s)
    (d : Nat × String × Option Nat) (hobj : ∀ o, d.2.2 = some o → (s.heap.get o).oid = some d.1) :
    Coherent kind (dropDeleted s d) ∧ Idle (dropDeleted s d) ∧
      ∀ n, ((dropDeleted s d).heap.get n).oid = (s.heap.get n).oid := by
  have hreg : ∀ (r : Dict Nat Nat) k n, (r.erase d.1).get? k = some n → r.get? k = some n :=
    fun r k n hk => (get?_erase_some hk).1
  rw [dropDeleted]
  cases hlive : d.2.2.or (s.registry.get? d.1) with
  | none =>
      exact ⟨h.congr rfl rfl rfl rfl le_rfl (fun _ => ⟨rfl, rfl, rfl⟩) rfl rfl rfl (hreg _) rfl rfl
        rfl, hidle, fun _ => rfl⟩
  | some o =>
      -- The instance of a deletion is the one it named, or the registered one.
      have hoid : (s.heap.get o).oid = some d.1 := by
        rcases Option.or_eq_some_iff.mp hlive with ho | ⟨_, ho⟩
        · exact hobj o ho
        · exact h.objects.registered d.1 o ho
      refine ⟨⟨h.storage.congr rfl rfl rfl le_rfl rfl, objectsOk_setState h.objects .deleted
        hoid (by decide) (by simp) rfl rfl rfl (hreg _) ?_ ?_ ?_,
        h.holders.congr rfl rfl, h.root.congr rfl rfl rfl fun k n _ hn =>
          ⟨hn, sameCls_setState s o .deleted n⟩⟩, hidle, fun n => ?_⟩
      -- The buffers are empty behind a commit.
      · intro k n
        change s.new.get? k = some n ↔ _
        rw [hidle.1]
        simp
      · intro k n hk
        change s.dirty.get? k = some n at hk
        rw [hidle.2.1] at hk
        simp at hk
      · intro k c obj hk
        change s.deleted.get? k = some (c, obj) at hk
        rw [hidle.2.2] at hk
        simp at hk
      · change ((s.setState o .deleted).heap.get n).oid = _
        rw [setState, get_modifyEntity]
        split
        · rename_i hn
          rw [hn]
        · rfl

theorem foldl_dropDeleted_coherent (ds : List (Nat × String × Option Nat)) : ∀ s : Store,
    Coherent kind s → Idle s →
    (∀ d ∈ ds, ∀ o, d.2.2 = some o → (s.heap.get o).oid = some d.1) →
    Coherent kind (ds.foldl dropDeleted s) := by
  induction ds with
  | nil => exact fun s h _ _ => h
  | cons d ds ih =>
      intro s h hidle hobj
      rcases dropDeleted_coherent h hidle d (hobj d List.mem_cons_self) with ⟨h', hidle', hoid⟩
      refine ih _ h' hidle' fun e he o ho => ?_
      rw [hoid]
      exact hobj e (List.mem_cons_of_mem d he) o ho

/-- Ending the identity of the deleted entities touches objects and the
    registry only. -/
theorem foldl_dropDeleted_frame (ds : List (Nat × String × Option Nat)) : ∀ s : Store,
    ∃ h r, ds.foldl dropDeleted s = { s with heap := h, registry := r } := by
  induction ds with
  | nil => exact fun s => ⟨s.heap, s.registry, rfl⟩
  | cons d ds ih =>
      intro s
      rcases ih (dropDeleted s d) with ⟨h, r, heq⟩
      refine ⟨h, r, heq.trans ?_⟩
      rw [dropDeleted]
      cases d.2.2.or (s.registry.get? d.1) <;> rfl

theorem foldl_swapBlob_frame (ws : List (Nat × String × Nat × List Nat)) : ∀ s : Store,
    ∃ h, ws.foldl swapBlob s = { s with heap := h } := by
  induction ws with
  | nil => exact fun s => ⟨s.heap, rfl⟩
  | cons w ws ih =>
      intro s
      rcases ih (swapBlob s w) with ⟨h, heq⟩
      exact ⟨h, heq⟩

/-- What the third phase changes behind the index fold. -/
theorem finishCommit_frame (cap : Capture) (s : Store) : ∃ h r,
    finishCommit cap s = { s with
      heap := h, registry := r, index := foldRest cap s.index, pendingUpserts := Dict.empty
      prestampLabels := s.prestampLabels.filterKeys fun oid => !cap.flipped.any fun e => e.1 = oid
      durableCids := s.durableCids ++ cap.batch.newTypes.map Prod.fst, lastTid := cap.tid } := by
  rcases foldl_dropDeleted_frame cap.deletes { s with index := foldRest cap s.index } with
    ⟨h, r, hdrop⟩
  rcases foldl_swapBlob_frame cap.blobSwaps
    (cap.deletes.foldl dropDeleted { s with index := foldRest cap s.index }) with ⟨h', hswap⟩
  refine ⟨h', r, ?_⟩
  unfold finishCommit
  dsimp only
  rw [hswap, hdrop]

theorem foldl_swapBlob_coherent (ws : List (Nat × String × Nat × List Nat)) : ∀ s : Store,
    Coherent kind s →
    Coherent kind (ws.foldl swapBlob s) := by
  induction ws with
  | nil => exact fun s h => h
  | cons w ws ih =>
      intro s h
      have hlife := sameLife_modify (f := fun e =>
        { e with data := Function.update e.data w.2.1 (.leaf (.blob w.2.2.1 w.2.2.2)) })
        (fun _ => ⟨rfl, rfl, rfl⟩) s w.1
      exact ih (swapBlob s w) (h.congr rfl rfl rfl rfl le_rfl hlife rfl rfl rfl (fun _ _ hk => hk)
        rfl rfl rfl)

theorem finish_coherent (h : Coherent kind s) (hidle : Idle s)
    (hobj : ∀ d ∈ cap.deletes, ∀ o, d.2.2 = some o → (s.heap.get o).oid = some d.1)
    (htypes : ∀ row ∈ cap.batch.newTypes, row ∈ s.backend.types) :
    Coherent kind (finishCommit cap s) := by
  have hstart : Coherent kind { s with index := foldRest cap s.index } :=
    h.withIndex (holders_foldRest h.holders cap)
  have hdropped := foldl_dropDeleted_coherent cap.deletes _ hstart hidle hobj
  have hswapped := foldl_swapBlob_coherent cap.blobSwaps _ hdropped
  -- Neither changes storage.
  have hbackend : (cap.blobSwaps.foldl swapBlob
      (cap.deletes.foldl dropDeleted { s with index := foldRest cap s.index })).backend =
      s.backend := by
    rcases foldl_dropDeleted_frame cap.deletes { s with index := foldRest cap s.index } with
      ⟨hp, r, hdrop⟩
    rcases foldl_swapBlob_frame cap.blobSwaps
      (cap.deletes.foldl dropDeleted { s with index := foldRest cap s.index }) with ⟨hp', hswap⟩
    rw [hswap, hdrop]
  refine ⟨⟨hswapped.storage.allocOid, hswapped.storage.rowsKnown, hswapped.storage.rowsUnique,
    hswapped.storage.rowsBelow, hswapped.storage.marksBelow, fun cid hcid => ?_,
    hswapped.storage.records⟩, hswapped.objects.congr le_rfl (fun _ => ⟨rfl, rfl, rfl⟩) rfl rfl rfl
    (fun _ _ hk => hk) rfl le_rfl, hswapped.holders.congr rfl rfl,
    hswapped.root.congr rfl rfl rfl fun _ _ _ hn => ⟨hn, rfl⟩⟩
  change ∃ row ∈ (cap.blobSwaps.foldl swapBlob _).backend.types, row.1 = cid
  rw [hbackend]
  -- A durable row was so before, or the batch brought it.
  rcases List.mem_append.mp hcid with hcid | hcid
  · exact h.storage.durable cid hcid
  · rcases List.mem_map.mp hcid with ⟨row, hrow, rfl⟩
    exact ⟨row, htypes row hrow, rfl⟩

/-- The third phase ends in the index fold or behind it. -/
theorem p3Finalize_final (cap : Capture) (s : Store) :
    (∃ e, p3Finalize cap s = .error e
      { s with index := finalState (IndexManager.apply cap.indexEntries s.index) }) ∨
    p3Finalize cap s = .ok cap.tid (finishCommit cap
      { s with index := finalState (IndexManager.apply cap.indexEntries s.index) }) := by
  rw [p3Finalize, bind_run, onIndex, zoom]
  cases IndexManager.apply cap.indexEntries s.index with
  | ok u m => exact Or.inr rfl
  | error e m => exact Or.inl ⟨e, rfl⟩

/-- A commit that was stored leaves nothing buffered, nor any note about what was. -/
theorem finalize_emptied (types : Types) (s₁ t : Store) (out : EncodedBatch) :
    let u := finalState (p3Finalize (captured types s₁ t out)
      (applyBatch (captured types s₁ t out).batch (t.settle types)))
    Idle u ∧ u.birthLabels = Dict.empty ∧ u.cancelledNew = Dict.empty := by
  intro u
  rcases p3Finalize_final (captured types s₁ t out)
    (applyBatch (captured types s₁ t out).batch (t.settle types)) with ⟨e, herr⟩ | hok
  · unfold u
    rw [herr]
    exact ⟨⟨rfl, rfl, rfl⟩, rfl, rfl⟩
  · rcases finishCommit_frame (captured types s₁ t out)
      { applyBatch (captured types s₁ t out).batch (t.settle types) with
        index := finalState (IndexManager.apply (captured types s₁ t out).indexEntries
          (applyBatch (captured types s₁ t out).batch (t.settle types)).index) } with
      ⟨hp, r, hfinish⟩
    unfold u
    rw [hok, finalState_ok, hfinish]
    exact ⟨⟨rfl, rfl, rfl⟩, rfl, rfl⟩

/-- What the third phase does to an object is to end it, or to swap a blob for a
    handle. -/
theorem finalize_heap {R : Entity → Entity → Prop} (hrefl : ∀ e, R e e)
    (htrans : ∀ e e' e'', R e e' → R e' e'' → R e e'')
    (hended : ∀ e, R e { e with state := .deleted }) (hswapped : ∀ e d, R e { e with data := d })
    (cap : Capture) (s : Store) (n : Nat) :
    R (s.heap.get n) ((finalState (p3Finalize cap s)).heap.get n) := by
  -- One modification of an entity respects the relation, whichever entity it is.
  have hmodify : ∀ (f : Entity → Entity), (∀ e, R e (f e)) → ∀ (s : Store) (o : Nat),
      R (s.heap.get n) ((s.modifyEntity o f).heap.get n) := by
    intro f hf s o
    rw [get_modifyEntity]
    by_cases hn : n = o
    · rw [if_pos hn, hn]
      exact hf _
    · rw [if_neg hn]
      exact hrefl _
  -- The deleted entities: each one either ends its life here or is left alone.
  have hdrop : ∀ (ds : List (Nat × String × Option Nat)) (s : Store),
      R (s.heap.get n) ((ds.foldl dropDeleted s).heap.get n) := by
    intro ds
    induction ds with
    | nil => exact fun s => hrefl _
    | cons d ds ih =>
        intro s
        refine htrans _ _ _ ?_ (ih (dropDeleted s d))
        unfold dropDeleted
        split
        · exact hmodify _ hended s _
        · exact hrefl _
  -- The blobs written: each one is swapped for its token on the entity that holds it.
  have hswap : ∀ (ws : List (Nat × String × Nat × List Nat)) (s : Store),
      R (s.heap.get n) ((ws.foldl swapBlob s).heap.get n) := by
    intro ws
    induction ws with
    | nil => exact fun s => hrefl _
    | cons w ws ih =>
        exact fun s => htrans _ _ _ (hmodify _ (fun e => hswapped e _) s w.1) (ih (swapBlob s w))
  rcases p3Finalize_final cap s with ⟨e, herr⟩ | hok
  -- A finalize that raised has only put its index entries in, which touches no entity.
  · rw [herr]
    exact hrefl _
  · rw [hok]
    exact htrans _ _ _ (hdrop cap.deletes { s with index := foldRest cap (finalState
      (IndexManager.apply cap.indexEntries s.index)) }) (hswap cap.blobSwaps _)

/-- What a commit that completed has done to the store its batch was captured
    in. -/
theorem p3Finalize_ok {s₁ u : Store} {out : EncodedBatch} {tid : Nat}
    (h : p3Finalize (captured types s₁ t out)
      (applyBatch (captured types s₁ t out).batch (t.settle types)) = .ok tid u) :
    ∃ m hp r pl, IndexManager.apply (t.indexEntries types) t.index = .ok () m ∧
      tid = t.alloc.nextTid ∧
      u = { t with
        heap := hp, registry := r, new := Dict.empty, dirty := Dict.empty, deleted := Dict.empty
        birthLabels := Dict.empty, prestampLabels := pl, cancelledNew := Dict.empty
        pendingUpserts := Dict.empty
        alloc := { t.alloc with nextTid := t.alloc.nextTid + 1 }, lastTid := t.alloc.nextTid
        durableCids := t.durableCids ++ out.newTypes.map Prod.fst
        index := foldRest (captured types s₁ t out) m
        backend := t.backend.apply (t.buildBatch out) } := by
  rcases foldl_flipOne types t.pending.entries t with ⟨hp, r, hflip, _⟩
  rcases bind_ok_iff.mp h with ⟨_, v, hindex, h⟩
  rcases zoom_ok_iff.mp hindex with ⟨m, happly, rfl⟩
  rw [bind_run_ok (modify_run _ _)] at h
  rcases finishCommit_frame (captured types s₁ t out)
    { applyBatch (captured types s₁ t out).batch (t.settle types) with index := m } with
    ⟨hp', r', hfinish⟩
  cases h
  rw [hfinish]
  simp only [applyBatch, settle, hflip] at happly ⊢
  exact ⟨m, hp', r', _, happly, rfl, rfl⟩

theorem backend_finalize (types : Types) (s₁ t : Store) (out : EncodedBatch) :
    (finalState (p3Finalize (captured types s₁ t out)
      (applyBatch (captured types s₁ t out).batch (t.settle types)))).backend =
      t.backend.apply (t.buildBatch out) := by
  rcases foldl_flipOne types t.pending.entries t with ⟨hp, r, hflip, _⟩
  have hbackend : (applyBatch (captured types s₁ t out).batch (t.settle types)).backend =
      t.backend.apply (t.buildBatch out) := by
    simp only [applyBatch, settle, hflip]
    rfl
  rcases p3Finalize_final (captured types s₁ t out)
    (applyBatch (captured types s₁ t out).batch (t.settle types)) with ⟨e, herr⟩ | hok
  · rw [herr]
    exact hbackend
  · rcases finishCommit_frame (captured types s₁ t out)
      { applyBatch (captured types s₁ t out).batch (t.settle types) with
        index := finalState (IndexManager.apply (captured types s₁ t out).indexEntries
          (applyBatch (captured types s₁ t out).batch (t.settle types)).index) } with
      ⟨hp', r', hfinish⟩
    rw [hok, finalState_ok, hfinish]
    exact hbackend

/-- The third phase keeps a store coherent as far as it goes. -/
theorem finalize_coherent {s₁ : Store} {out : EncodedBatch} (h : Coherent kind t)
    (hb : BatchOk types t t.pending.entries t out) :
    Coherent (classed kind t) (finalState (p3Finalize (captured types s₁ t out)
      (applyBatch (captured types s₁ t out).batch (t.settle types)))) := by
  rcases foldl_flipOne types t.pending.entries t with ⟨hp, r, hflip, hsize, hget, hreg⟩
  have hstored : Coherent (classed kind t)
      (applyBatch (captured types s₁ t out).batch (t.settle types)) := stored_coherent h hb
  -- The commit adds index entries for pending entities only, and these are all of known objects.
  have hindexed := hstored.withIndex (holders_apply hstored.holders
    (captured types s₁ t out).indexEntries (by
      intro e he
      rcases List.mem_filterMap.mp he with ⟨⟨k, o⟩, hko, heq⟩
      dsimp only at heq
      split at heq
      · simp at heq
      · rw [← Option.some.inj heq]
        exact known_pending h hko))
  rcases p3Finalize_final (captured types s₁ t out)
    (applyBatch (captured types s₁ t out).batch (t.settle types)) with ⟨e, herr⟩ | hok
  · rw [herr]
    exact hindexed
  · rw [hok, finalState_ok]
    -- What is left to show is that a deleted entity was not registered under a live row.
    refine finish_coherent hindexed ⟨rfl, rfl, rfl⟩ (fun d hd o ho => ?_) fun row hrow =>
      List.mem_append_right _ hrow
    have hdel := (h.objects.isDeleted d.1 d.2.1 d.2.2 ((Dict.get?_eq_some_iff _ _ _).mpr hd)).2 o ho
    simp only [applyBatch, settle, hflip, hget]
    split <;> exact hdel

end Finishing

section Sessions

/-- Only a commit reaches storage. -/
theorem prepares_backend (hstep : Prepares types p s t) : t.backend = s.backend := by
  rcases hstep with he | he
  · cases he with
    | grow hg => cases hg <;> rfl
    | load hl =>
        cases hl with
        | shell => rfl
        | fill => rfl
        | unregister o =>
            rw [unregister]
            split <;> rfl
    | firstWrite o hstate =>
        rw [onFirstWrite]
        split <;> rfl
    | deleteHolder oid c f key ci hci hheld hstate hroot =>
        cases hr : s.registry.get? oid <;> rfl
    | _ => rfl
  · cases he <;> rfl

/-- The steps up to a captured batch. -/
theorem Captured.prepares {s₁ : Store} {m : IndexManager} {out : EncodedBatch}
    (hc : Captured types p s s₁ m out t) : Relation.ReflTransGen (Prepares types p) s t := by
  have hgrow := Relation.ReflTransGen.mono
    (fun _ _ hg => (Or.inl (.grow hg) : Prepares types p _ _)) _ _ hc.grown
  have hensure := Relation.ReflTransGen.mono
    (fun _ _ he => (Or.inl he : Prepares types p _ _)) _ _ (edits_of_ensures (p := p) hc.ensured)
  have hencode := Relation.ReflTransGen.mono
    (fun _ _ he => (Or.inr he : Prepares types p _ _)) _ _ hc.encodes
  exact (hgrow.trans hensure).trans hencode

theorem backend_of_prepares (h : Relation.ReflTransGen (Prepares types p) s t) :
    t.backend = s.backend :=
  reflTransGen_invariant (I := fun u => u.backend = s.backend)
    (fun _ _ hst hs => (prepares_backend hst).trans hs) h rfl

/-- Discovery buffers new entities under new OIDs, and that is all. -/
theorem grown_buffers {s₁ : Store} (hgrown : Relation.ReflTransGen (Grow types p) s s₁) :
    s₁.dirty = s.dirty ∧ s₁.deleted = s.deleted ∧ s.alloc.nextOid ≤ s₁.alloc.nextOid ∧
      ∀ k o, s₁.new.get? k = some o → s.new.get? k = some o ∨ s.alloc.nextOid ≤ k := by
  refine reflTransGen_invariant (I := fun u => u.dirty = s.dirty ∧ u.deleted = s.deleted ∧
    s.alloc.nextOid ≤ u.alloc.nextOid ∧
      ∀ k o, u.new.get? k = some o → s.new.get? k = some o ∨ s.alloc.nextOid ≤ k)
    (fun u v hstep hu => ?_) hgrown ⟨rfl, rfl, le_rfl, fun _ _ hn => Or.inl hn⟩
  rcases hu with ⟨hdirty, hdeleted, hle, hnew⟩
  cases hstep with
  | adopt n hsize hoid huid =>
      refine ⟨hdirty, hdeleted, Nat.le_succ_of_le hle, fun k o hk => ?_⟩
      by_cases hne : k = u.alloc.nextOid
      · exact Or.inr (hne ▸ hle)
      · exact hnew k o ((Dict.get?_set_ne _ _ hne).symm.trans hk)
  | stamp n oid container hn hprot => exact ⟨hdirty, hdeleted, hle, hnew⟩

/-- What is pending behind discovery was pending before, or is new. -/
theorem grown_pending {s₁ : Store} (hgrown : Relation.ReflTransGen (Grow types p) s s₁) {k o : Nat}
    (hk : s₁.pending.get? k = some o) : s.pending.get? k = some o ∨ s.alloc.nextOid ≤ k := by
  rcases grown_buffers hgrown with ⟨hdirty, hdeleted, -, hnew⟩
  rcases (get?_pending s₁ k o).mp hk with ⟨hdel, hcase⟩
  rw [hdeleted] at hdel
  rw [hdirty] at hcase
  rcases hcase with hd | ⟨hnone, hn⟩
  · exact Or.inl ((get?_pending s k o).mpr ⟨hdel, Or.inl hd⟩)
  · rcases hnew k o hn with hold | hle
    · exact Or.inl ((get?_pending s k o).mpr ⟨hdel, Or.inr ⟨hnone, hold⟩⟩)
    · exact Or.inr hle

theorem backend_p2Rollback (cap : Capture) (s : Store) : (p2Rollback cap s).backend = s.backend := by
  have hfold : ∀ (fl : List (Nat × Nat × EntityState)) (s : Store),
      (fl.foldl restoreOne s).backend = s.backend := by
    intro fl
    induction fl with
    | nil => exact fun s => rfl
    | cons e fl ih =>
        intro s
        refine (ih _).trans ?_
        rw [restoreOne]
        split <;> rfl
  exact hfold cap.flipped _

theorem backend_settle (types : Types) (s : Store) : (s.settle types).backend = s.backend := by
  rcases foldl_flipOne types s.pending.entries s with ⟨hp, r, hflip, _⟩
  rw [settle, hflip]

/-- A coherent store stays coherent through a commit, and the classes of the
    OIDs below the mark stay. -/
theorem ends_coherent (h : Coherent kind s) {fault : Bool} {u : Store}
    (hends : Ends types p fault s u) : ∃ kind', Coherent kind' u ∧
      (∀ k < s.backend.marks.nextOid, kind' k = kind k) ∧
      s.backend.marks.nextOid ≤ u.backend.marks.nextOid := by
  rcases hends with hprep | ⟨s₁, m, out, t, hc, hfinal⟩
  · refine ⟨kind, reflTransGen_invariant (I := Coherent kind) (fun _ _ he => prepares_coherent he)
      hprep h, fun _ _ => rfl, ?_⟩
    rw [backend_of_prepares hprep]
  · have ht := hc.coherent h
    have htb : t.backend = s.backend := backend_of_prepares hc.prepares
    cases fault with
    | true =>
        rw [hfinal, if_pos rfl]
        refine ⟨kind, rollback_coherent ht, fun _ _ => rfl, ?_⟩
        rcases rollback_spec types (s₁.refEntries types) out ht with
          ⟨_, _, _, _, _, heq, _⟩
        rw [captured, heq, ← htb]
    | false =>
        rw [hfinal, if_neg (by decide)]
        refine ⟨classed kind t, finalize_coherent ht (hc.batchOk h), fun k hk =>
          classed_below ht (htb ▸ hk), ?_⟩
        rw [← htb, backend_finalize]
        exact ht.storage.allocOid

/-- Detaching touches objects and the labels kept for it. -/
theorem foldl_detach (es : List (Nat × Nat)) : ∀ s : Store, ∃ h l,
    es.foldl (fun s e => s.detach e) s = { s with heap := h, prestampLabels := l } ∧
      h.size = s.heap.size ∧ (∀ n, n ∉ es.map Prod.snd → h.get n = s.heap.get n) ∧
      ∀ n, n ∈ es.map Prod.snd → (h.get n).oid = none ∧ (h.get n).state = .new := by
  induction es with
  | nil => exact fun s => ⟨s.heap, s.prestampLabels, rfl, rfl, fun _ _ => rfl, by simp⟩
  | cons e es ih =>
      intro s
      -- One detached entity: its object alone changes, and it ends NEW without an OID. Both
      -- branches of the source (a pre-stamped owner or none) come to this.
      have hone : ∃ h l, s.detach e = { s with heap := h, prestampLabels := l } ∧
          h.size = s.heap.size ∧ (∀ n, n ≠ e.2 → h.get n = s.heap.get n) ∧
          (h.get e.2).oid = none ∧ (h.get e.2).state = .new := by
        rw [detach]
        split
        · refine ⟨_, _, rfl, rfl, fun n hn => ?_, ?_, ?_⟩
          · exact (Heap.get_set_ne _ _ hn).trans (Heap.get_set_ne _ _ hn)
          · simp
          · simp
        · refine ⟨_, _, rfl, rfl, fun n hn => ?_, ?_, ?_⟩
          · exact Heap.get_set_ne _ _ hn
          · exact congrArg Entity.oid (Heap.get_set_self _ _ _)
          · exact congrArg Entity.state (Heap.get_set_self _ _ _)
      rcases hone with ⟨h₁, l₁, heq, hsize₁, hne₁, hoid₁, hst₁⟩
      rcases ih (s.detach e) with ⟨h, l, hfold, hsize, hother, hdone⟩
      rw [heq] at hfold hsize hother
      refine ⟨h, l, by rw [List.foldl_cons, heq, hfold], hsize.trans hsize₁, fun n hn => ?_,
        fun n hn => ?_⟩
      -- An object outside the list is left alone by the head and by the tail.
      · rw [List.map_cons, List.mem_cons, not_or] at hn
        exact (hother n hn.2).trans (hne₁ n hn.1)
      · by_cases hmem : n ∈ es.map Prod.snd
        · exact hdone n hmem
        · rw [List.map_cons, List.mem_cons] at hn
          rw [hother n hmem, hn.resolve_right hmem]
          exact ⟨hoid₁, hst₁⟩

/-- A store derived from storage, whose objects never became durable or belong
    to records. -/
theorem loaded_coherent (h : StorageOk kind s) (hroot : RootOk kind s) {cacheBlobs reverseBlob}
    (hb : t.backend = s.backend) (hidle : Idle t) (hreg : t.registry = Dict.empty)
    (hbounded : ∀ o k, (t.heap.get o).oid = some k → o < t.heap.size)
    (hfresh : ∀ o, (t.heap.get o).oid = none → (t.heap.get o).state = .new)
    (hnew : ∀ o k, (t.heap.get o).state = .new → (t.heap.get o).oid ≠ some k)
    (hsettled : ∀ o k, (t.heap.get o).state = .clean ∨ (t.heap.get o).state = .dirty →
      (t.heap.get o).oid = some k → Known kind s (t.heap.get o).cls k)
    (hblobs : ∀ blobs c blob, cacheBlobs = some blobs → blobs.get? c = some blob →
      blob.HoldersIn (Known kind s c)) :
    Coherent kind (loadState cacheBlobs reverseBlob t) := by
  -- A load keeps the backend, so what was known stays known.
  have hknown : ∀ c k, Known kind s c k → Known kind (loadState cacheBlobs reverseBlob t) c k := by
    intro c k hk
    rw [Known, loadState]
    simp only [hb]
    exact hk
  -- The storage half reads the marks back from the tables; the object half is about instances
  -- without a registry entry, as a load empties the registry.
  refine ⟨⟨?_, ?_, ?_, ?_, ?_, ?_, ?_⟩, ⟨hbounded, hfresh, ?_, ?_, ?_, ?_, ?_, ?_⟩, ⟨?_, ?_⟩, ⟨?_, ?_⟩⟩
  · exact le_rfl
  · exact fun row hrow => hrow
  · intro row hrow row' hrow' heq
    simp only [loadState, hb] at hrow hrow'
    exact h.rowsUnique row (h.rowsKnown row hrow) row' (h.rowsKnown row' hrow') heq
  · intro row hrow
    simp only [loadState, hb] at hrow ⊢
    exact h.marksBelow row hrow
  · intro row hrow
    simp only [loadState, hb] at hrow ⊢
    exact h.marksBelow row hrow
  · intro cid hcid
    rcases List.mem_map.mp hcid with ⟨row, hrow, heq⟩
    exact ⟨row, hrow, heq⟩
  · intro k rec hrec
    simp only [loadState, hb] at hrec ⊢
    exact h.records k rec hrec
  · intro k o hk
    simp [loadState, hidle.1] at hk
  · exact fun o k hst hk => absurd hk (hnew o k hst)
  · exact fun o k hst hk => hknown _ _ (hsettled o k hst hk)
  · intro k o hk
    simp [loadState, hidle.2.1] at hk
  · intro k c obj hk
    simp [loadState, hidle.2.2] at hk
  · intro k o hk
    simp [loadState, hreg] at hk
  · intro c ci hci
    simp [loadState] at hci
  · intro blobs c blob hcache hblob f key k hk
    exact hknown _ _ (hblobs blobs c blob hcache hblob f key k hk)
  · intro k hk
    simp only [loadState, hb] at hk
    exact Or.inl (hknown _ _ (hroot.durableRoot k hk))
  · intro k hk
    simp only [loadState, hb] at hk
    exact hknown _ _ (hroot.durableRoot k hk)

theorem backend_discard (s : Store) : s.discard.backend = s.backend := by
  rcases foldl_detach (s.new.entries ++ s.cancelledNew.entries) s with ⟨hp, l, hfold, _⟩
  rw [discard, hfold]
  rfl

/-- Discarding goes back to storage; what never became durable has no OID. -/
theorem discard_coherent (h : Coherent kind s) : Coherent kind s.discard := by
  -- Discarding detaches the new and the cancelled entities and loads again; a detached instance has
  -- no OID, so the conditions on instances with one are about the others.
  rcases foldl_detach (s.new.entries ++ s.cancelledNew.entries) s with
    ⟨hp, l, hfold, hsize, hother, hdone⟩
  rw [discard, hfold, refresh]
  refine loaded_coherent h.storage h.root rfl ⟨rfl, rfl, rfl⟩ rfl (fun o k hk => ?_)
    (fun o ho => ?_) (fun o k hst hk => ?_) (fun o k hst hk => ?_) (fun _ _ _ hb => by simp at hb)
  all_goals
    by_cases hmem : o ∈ (s.new.entries ++ s.cancelledNew.entries).map Prod.snd
  · have hk' : (hp.get o).oid = some k := hk
    rw [(hdone o hmem).1] at hk'
    simp at hk'
  · have hk' : (hp.get o).oid = some k := hk
    rw [hother o hmem] at hk'
    change o < hp.size
    rw [hsize]
    exact h.objects.bounded o k hk'
  · exact (hdone o hmem).2
  · have ho' : (hp.get o).oid = none := ho
    change (hp.get o).state = .new
    rw [hother o hmem] at ho' ⊢
    exact h.objects.fresh o ho'
  · have hk' : (hp.get o).oid = some k := hk
    rw [(hdone o hmem).1] at hk'
    simp at hk'
  -- A NEW instance with an OID is buffered as new, hence among the detached ones.
  · have hk' : (hp.get o).oid = some k := hk
    have hst' : (hp.get o).state = .new := hst
    rw [hother o hmem] at hk' hst'
    have hnew := (h.objects.newOf o k hst' hk').1
    refine hmem (List.mem_map.mpr ⟨(k, o), List.mem_append_left _ ?_, rfl⟩)
    exact (Dict.get?_eq_some_iff _ _ _).mp hnew
  · have hk' : (hp.get o).oid = some k := hk
    rw [(hdone o hmem).1] at hk'
    simp at hk'
  · have hk' : (hp.get o).oid = some k := hk
    have hst' : (hp.get o).state = .clean ∨ (hp.get o).state = .dirty := hst
    change Known kind s (hp.get o).cls k
    rw [hother o hmem] at hk' hst' ⊢
    exact h.objects.settled o k hst' hk'

end Sessions

theorem finalState_effect {α : Type} (m : M α) (s : Store) :
    finalState (effect m s) = finalState (m s) := by
  rw [effect, bind_run]
  cases m s <;> rfl

end Store

/-- An operation that only buffers, a commit, or a discard. -/
theorem Op.kinds (op : Op) : op.isEdit = true ∨ (∃ fault, op = .commit fault) ∨ op = .discard := by
  cases op <;> simp [Op.isEdit]

namespace World

open Store

variable {kind : Nat → String} {w : World}

/-- A coherent store next to a sidecar whose blobs name OIDs of their own class. The
    sidecar is part of it because the next session may load its indexes from there.
    -/
structure Coherent (kind : Nat → String) (w : World) : Prop where
  store : w.store.Coherent kind
  sidecar : ∀ sc c blob, w.sidecar = some sc → sc.classes.get? c = some blob →
    blob.HoldersIn (Known kind w.store c)

/-- A session starts coherent over any storage that is in order. -/
theorem boot_coherent {s : Store} (h : StorageOk kind s) (hroot : RootOk kind s)
    {cacheBlobs reverseBlob} (hblobs : ∀ blobs c blob, cacheBlobs = some blobs →
      blobs.get? c = some blob → blob.HoldersIn (Known kind s c)) :
    Store.Coherent kind (Store.boot cacheBlobs reverseBlob s.backend) := by
  refine loaded_coherent h hroot rfl ⟨rfl, rfl, rfl⟩ rfl ?_ ?_ ?_ ?_ hblobs
  · exact fun o k hk => by simp [Heap.empty, default] at hk
  · exact fun o _ => rfl
  · exact fun o k _ hk => by simp [Heap.empty, default] at hk
  · exact fun o k _ hk => by simp [Heap.empty, default] at hk

theorem reopen_coherent (h : w.store.Coherent kind) (types : Types) {sidecar : Option Sidecar}
    (hside : ∀ sc c blob, sidecar = some sc → sc.classes.get? c = some blob →
      blob.HoldersIn (Known kind w.store c)) :
    (reopen types sidecar w.store.backend).Coherent kind := by
  refine ⟨boot_coherent h.storage h.root fun blobs c blob hblobs hblob => ?_, hside⟩
  rcases Option.map_eq_some_iff.mp hblobs with ⟨sc, hsc, rfl⟩
  exact hside sc c blob (Option.filter_eq_some_iff.mp hsc).1 hblob

/-- The sidecar a closed session leaves. -/
theorem closed_holders (h : w.Coherent kind) : ∀ sc c blob, w.closed = some sc →
    sc.classes.get? c = some blob → blob.HoldersIn (Known kind w.store c) := by
  intro sc c blob hsc hblob
  rw [closed] at hsc
  split at hsc
  · exact h.sidecar sc c blob hsc hblob
  · rw [← Option.some.inj hsc] at hblob
    rw [IndexManager.dumpForCache, Dict.get?_mapVal, Option.map_eq_some_iff] at hblob
    rcases hblob with ⟨ci, hci, rfl⟩
    exact h.store.holders.built c ci hci

theorem step_coherent (h : w.Coherent kind) (e : Event) : ∃ kind', (w.step e).Coherent kind' ∧
    (∀ k < w.store.backend.marks.nextOid, kind' k = kind k) ∧
    w.store.backend.marks.nextOid ≤ (w.step e).store.backend.marks.nextOid := by
  cases e with
  | closeAndOpen types =>
      exact ⟨kind, reopen_coherent h.store types (closed_holders h), fun _ _ => rfl, le_rfl⟩
  | crashAndOpen types =>
      exact ⟨kind, reopen_coherent h.store types h.sidecar, fun _ _ => rfl, le_rfl⟩
  | act p op =>
      -- An operation is a chain of edits, a commit or a discard. Only the commit assigns kinds, and
      -- only to OIDs at or above the mark.
      have hstep : ∃ kind', (finalState (op.run w.types p w.store)).Coherent kind' ∧
          (∀ k < w.store.backend.marks.nextOid, kind' k = kind k) ∧
          w.store.backend.marks.nextOid ≤
            (finalState (op.run w.types p w.store)).backend.marks.nextOid := by
        rcases op.kinds with hop | ⟨fault, rfl⟩ | rfl
        · have hmoves := moves_op w.types p op hop w.store
          refine ⟨kind, reflTransGen_invariant (I := Store.Coherent kind)
            (fun _ _ he => edit_coherent he) hmoves h.store, fun _ _ => rfl, ?_⟩
          rw [backend_of_prepares (Relation.ReflTransGen.mono
            (fun _ _ he => (Or.inl he : Prepares w.types p _ _)) _ _ hmoves)]
        · rw [Op.run, finalState_effect]
          exact ends_coherent h.store (commit_cases w.types p fault w.store)
        · refine ⟨kind, discard_coherent h.store, fun _ _ => rfl, ?_⟩
          rw [Op.run, modify_run, finalState_ok, backend_discard]
      rcases hstep with ⟨kind', hstore, hsame, hle⟩
      refine ⟨kind', ⟨hstore, fun sc c blob hsc hblob f key k hk => ?_⟩, hsame, hle⟩
      have hknown := h.sidecar sc c blob hsc hblob f key k hk
      exact ⟨Nat.lt_of_lt_of_le hknown.1 hle, by rw [hsame k hknown.1]; exact hknown.2⟩

/-- A new store directory holds nothing. -/
theorem start_coherent (types : Types) (kind : Nat → String) : (start types).Coherent kind := by
  have hstorage : StorageOk kind (Store.boot none none {}) :=
    ⟨le_rfl, fun row hrow => hrow, by simp [Store.boot, loadState], by simp [Store.boot, loadState],
      by simp [Store.boot, loadState], by simp [Store.boot, loadState],
      by simp [Store.boot, loadState]⟩
  have hroot : RootOk kind (Store.boot none none {}) :=
    ⟨by simp [Store.boot, loadState], by simp [Store.boot, loadState]⟩
  refine ⟨?_, fun sc c blob hsc => by simp [start] at hsc⟩
  exact boot_coherent hstorage hroot fun _ _ _ hb => by simp at hb

/-- Every world of a run is coherent. -/
theorem run_coherent (types : Types) (events : List Event) :
    ∃ kind, ((start types).run events).Coherent kind := by
  induction events using List.reverseRecOn with
  | nil => exact ⟨fun _ => "", start_coherent types _⟩
  | append_singleton events e ih =>
      rcases ih with ⟨kind, h⟩
      rcases step_coherent h e with ⟨kind', h', _⟩
      refine ⟨kind', ?_⟩
      rw [run, List.foldl_append]
      exact h'

/-- Only a commit that was not refused changes storage. -/
theorem step_backend (w : World) (e : Event) : (w.step e).store.backend = w.store.backend ∨
    ∃ p s₁ m out t, e = .act p (.commit false) ∧ Captured w.types p w.store s₁ m out t ∧
      (w.step e).store = finalState (p3Finalize (captured w.types s₁ t out)
        (applyBatch (captured w.types s₁ t out).batch (t.settle w.types))) := by
  cases e with
  | closeAndOpen types => exact Or.inl rfl
  | crashAndOpen types => exact Or.inl rfl
  | act p op =>
      rcases op.kinds with hop | ⟨fault, rfl⟩ | rfl
      -- Edits prepare a commit and write nothing.
      · have hmoves := moves_op w.types p op hop w.store
        exact Or.inl (backend_of_prepares (Relation.ReflTransGen.mono
          (fun _ _ he => (Or.inl he : Prepares w.types p _ _)) _ _ hmoves))
      · have hstep : (w.step (.act p (.commit fault))).store =
            finalState (commit w.types p fault w.store) := by
          rw [step, Op.run, finalState_effect]
        rw [hstep]
        rcases commit_cases w.types p fault w.store with hprep | ⟨s₁, m, out, t, hc, hfinal⟩
        · exact Or.inl (backend_of_prepares hprep)
        -- A failing P2 rolls the batch back, so nothing was written; otherwise the batch is on disk
        -- whatever P3 does.
        · cases fault with
          | true =>
              left
              rw [hfinal, if_pos rfl, backend_p2Rollback, backend_settle,
                backend_of_prepares hc.prepares]
          | false =>
              right
              exact ⟨p, s₁, m, out, t, rfl, hc, by rw [hfinal, if_neg (by decide)]⟩
      · left
        rw [step, Op.run, modify_run, finalState_ok, backend_discard]

end World

end DataCrystal
