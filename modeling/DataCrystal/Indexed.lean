import DataCrystal.Folding

/-!
# Indexes Behind a Commit

The third phase takes every built index from the rows before a commit to the
rows storage holds then. Which rows those are is a case distinction on the OID:
deleted, written as an entity of the class, written as an entity of another
class, or left alone.

The first phase collects an index entry for an entity only if its class has an
indexed field. An entity of any other class is not folded in, so the extent of
such a class, once it is built, misses the entities created later. The commits
to be looked at are therefore those that create no entity behind an index that
will not see it.

## Main definitions

* `BuffersConform`: The values of the buffered entities conform.
* `NoneUnseen`: No record appears behind an index that gets no entry for it.
* `Indexed`: The indexes and the records of a store.

## Theorems

* `folded_rows`: The rows the fold arrives at are those storage holds.
* `foldRest_faithful`: The third phase keeps the indexes faithful.
* `stored_distinct`: No commit stores a unique key twice.
* `ends_indexed`: However a commit ends, the indexes stand for the records.
-/

namespace DataCrystal

open ClassIndexes Store IndexManager

variable {fam : String → String → Family} {types : Types} {P : String → Prop}

namespace Store

variable {p : Principal} {kind : Nat → String} {s t : Store} {c : String}

/-- The values of the buffered entities conform. This is asked behind discovery,
    when everything is buffered that the commit writes. -/
def BuffersConform (fam : String → String → Family) (types : Types) (s : Store) : Prop :=
  ∀ e ∈ s.pending.entries, Conforms (fam (s.heap.get e.2).cls) (s.info types e.2)
    (s.heap.get e.2).field

instance : Decidable (BuffersConform fam types s) :=
  inferInstanceAs (Decidable (∀ e ∈ s.pending.entries, _))

/-- A commit makes no record of a class without indexed fields while the class
    has an index, built or cached. -/
def NoneUnseen (P : String → Prop) (types : Types) (s : Store) : Prop :=
  ∀ e ∈ s.pending.entries, P (s.heap.get e.2).cls → (s.info types e.2).maintainedFields = [] →
    s.backend.objects.get? e.1 = none →
      s.index.byCls.get? (s.heap.get e.2).cls = none ∧ s.index.blobOf (s.heap.get e.2).cls = none

theorem BuffersConform.sortable (h : BuffersConform fam types s) : BuffersSortable (Kin.ofFamilies fam) types s :=
  fun e he => (h e he).sortable

section Entries

variable {e : IndexEntry}

theorem mem_indexEntries : e ∈ t.indexEntries types ↔ ∃ o, (e.1, o) ∈ t.pending.entries ∧
    e.2.1 = (t.heap.get o).cls ∧ e.2.2 = entryOf (t.info types o) (t.heap.get o).field ∧
    (t.info types o).maintainedFields ≠ [] := by
  unfold indexEntries
  rw [List.mem_filterMap]
  constructor
  · rintro ⟨⟨k, o⟩, hko, heq⟩
    dsimp only at heq
    split at heq
    · cases heq
    · rename_i hno
      rw [List.isEmpty_iff] at hno
      rw [← Option.some.inj heq]
      exact ⟨o, hko, rfl, rfl, hno⟩
  · rintro ⟨o, hko, hcls, hvalues, hno⟩
    refine ⟨(e.1, o), hko, ?_⟩
    dsimp only
    unfold info at hvalues hno
    rw [if_neg (by rw [List.isEmpty_iff]; exact hno), ← hcls]
    rw [← hcls] at hvalues
    rw [← hvalues]

/-- Looking a maintained field up in an entry gives the value of the entity. -/
theorem entryValue_entryOf {ti : TypeInfo} (row : String → Val LiveRef) {f : String}
    (hf : f ∈ ti.maintainedFields) : entryValue (entryOf ti row) f = row f := by
  unfold entryValue entryOf entryIn
  rw [List.find?_map]
  have hfind : ti.relevant.find?
      ((fun e : String × Val LiveRef => decide (e.1 = f)) ∘ fun g => (g, row g)) = some f := by
    cases hfound : ti.relevant.find?
        ((fun e : String × Val LiveRef => decide (e.1 = f)) ∘ fun g => (g, row g)) with
    | none =>
        rw [List.find?_eq_none] at hfound
        exact absurd (decide_eq_true rfl) (hfound f ((mem_relevant ti f).mpr hf))
    | some g =>
        have hg : g = f := by simpa using List.find?_some hfound
        rw [hg]
  rw [hfind]
  rfl

theorem rowKeys_congr {ρ : Type} {ti : TypeInfo} {row row' : String → Val ρ} {f : String}
    (h : row f = row' f) : rowKeys ti row f = rowKeys ti row' f := by
  unfold rowKeys
  rw [h]

theorem Conforms.congr {ρ : Type} {fam : String → Family} {ti : TypeInfo}
    {row row' : String → Val ρ} (h : Conforms fam ti row)
    (heq : ∀ f ∈ ti.maintainedFields, row' f = row f) : Conforms fam ti row' := by
  have hkeys : ∀ f ∈ ti.maintainedFields, rowKeys ti row' f = rowKeys ti row f :=
    fun f hf => rowKeys_congr (heq f hf)
  have heqIndex : ∀ f ∈ ti.eqIndexFields, f ∈ ti.maintainedFields :=
    fun f hf => (ti.mem_maintainedFields f).mpr (Or.inl hf)
  refine ⟨fun f hf => ?_, fun f hf => ?_, fun f hf k hk => ?_, fun f hf k hk => ?_⟩
  · rw [heq f hf, hkeys f hf]
    exact h.keyed f hf
  · rw [hkeys f (heqIndex f (ti.eqIndexFields_of_list hf))]
    exact h.elements f hf
  · rw [hkeys f hf] at hk
    exact h.noNan f hf k hk
  · rw [hkeys f (heqIndex f (ti.eqIndexFields_of_sorted hf))] at hk
    exact h.ordered f hf k hk

/-- The entries of a commit carry what its entities hold. -/
theorem BuffersConform.entries (h : BuffersConform fam types t) :
    ∀ e ∈ t.indexEntries types, EntryConforms fam types e := by
  intro e he
  rcases mem_indexEntries.mp he with ⟨o, hko, hcls, hvalues, -⟩
  have hvalue : ∀ f ∈ (types.info e.2.1).maintainedFields,
      entryValue e.2.2 f = (t.heap.get o).field f := by
    intro f hf
    rw [hvalues]
    unfold info
    rw [← hcls]
    exact entryValue_entryOf _ hf
  constructor
  · have hsame : entryOf (types.info e.2.1) (entryValue e.2.2) =
        entryOf (types.info e.2.1) (t.heap.get o).field := by
      unfold entryOf entryIn
      exact List.map_congr_left fun f hf => by rw [hvalue f ((mem_relevant _ f).mp hf)]
    rw [hsame, hcls]
    exact hvalues
  · have hfields := h (e.1, o) hko
    dsimp only at hfields
    unfold info at hfields
    rw [← hcls] at hfields
    exact Conforms.congr hfields hvalue

theorem BuffersConform.keyed (h : BuffersConform fam types t) :
    ∀ e ∈ t.indexEntries types, EntryKeyed types e :=
  fun e he f hf => (h.entries e he).conforms.keyed f
    (((types.info e.2.1).mem_maintainedFields f).mpr (Or.inr hf))

theorem indexEntries_nodup (t : Store) : ((t.indexEntries types).map Prod.fst).Nodup := by
  have hsub : ((t.indexEntries types).map Prod.fst).Sublist (t.pending.entries.map Prod.fst) := by
    unfold indexEntries
    induction t.pending.entries with
    | nil => exact .slnil
    | cons e es ih =>
        rw [List.filterMap_cons]
        dsimp only
        split
        · exact ih.cons _
        · rename_i heq
          split at heq
          · cases heq
          · rw [← Option.some.inj heq]
            exact ih.cons_cons _
  exact hsub.nodup t.pending.nodup

end Entries

section Rows

variable {out : EncodedBatch}

/-- The deletions of a commit as the indexes see them. -/
def deletions (t : Store) : List (Nat × String) := t.deleted.entries.map fun d => (d.1, d.2.1)

theorem mem_deletions {n : Nat} : (n, c) ∈ t.deletions ↔ ∃ obj, t.deleted.get? n = some (c, obj) := by
  unfold deletions
  rw [List.mem_map]
  constructor
  · rintro ⟨⟨k, d, obj⟩, hmem, heq⟩
    simp only [Prod.mk.injEq] at heq
    rcases heq with ⟨rfl, rfl⟩
    exact ⟨obj, (Dict.get?_eq_some_iff _ _ _).mpr hmem⟩
  · rintro ⟨obj, hobj⟩
    exact ⟨(n, c, obj), (Dict.get?_eq_some_iff _ _ _).mp hobj, rfl⟩

theorem pending_not_deleted {n o : Nat} (hko : (n, o) ∈ t.pending.entries) :
    n ∉ t.deleted.keys := by
  rw [Dict.not_mem_keys_iff]
  exact ((get?_pending t n o).mp ((Dict.get?_eq_some_iff _ _ _).mpr hko)).1

/-- A pending entity with a record had it before, under its class. -/
theorem pending_row (h : Coherent kind t) {n o : Nat} (hko : (n, o) ∈ t.pending.entries)
    (hrec : t.backend.objects.get? n ≠ none) :
    (t.backend.classRows (types.info (t.heap.get o).cls) (t.heap.get o).cls n).isSome := by
  rcases Option.ne_none_iff_exists'.mp hrec with ⟨rec, hget⟩
  rcases h.pending_object hko with ⟨hoid, ⟨-, hnew⟩ | ⟨hst, -⟩⟩
  · rw [h.new_unstored hnew] at hget
    cases hget
  · have hkind := (h.objects.settled o n (Or.inr hst) hoid).2
    have hcls := (h.storage.shape hget).2
    rw [← hkind] at hcls
    rw [classRows_of_record hget hcls]
    rfl

/-- The rows the fold arrives at are those storage holds after the commit. -/
theorem folded_rows (h : Coherent kind t) (hb : BatchOk types t t.pending.entries t out)
    (hseen : (types.info c).maintainedFields = [] → ∀ e ∈ t.pending.entries,
      (t.heap.get e.2).cls = c → t.backend.objects.get? e.1 ≠ none) :
    SameKeys (types.info c)
      (droppedRows c t.deletions (writtenRows types c (t.indexEntries types)
        (t.backend.classRows (types.info c) c)))
      ((t.backend.apply (t.buildBatch out)).classRows (types.info c) c) := by
  -- One OID at a time: it is deleted, pending or neither, and a pending one is of the class or not.
  have hcase : ∀ n, (((t.backend.apply (t.buildBatch out)).classRows (types.info c) c n).isSome =
      (droppedRows c t.deletions (writtenRows types c (t.indexEntries types)
        (t.backend.classRows (types.info c) c)) n).isSome) ∧
      ∀ f ∈ (types.info c).maintainedFields,
        recalled ((t.backend.apply (t.buildBatch out)).classRows (types.info c) c n) f =
          recalled (droppedRows c t.deletions (writtenRows types c (t.indexEntries types)
            (t.backend.classRows (types.info c) c)) n) f := by
    intro n
    by_cases hdel : n ∈ t.deleted.keys
    · -- deleted: of this class, or of another one and never in it
      rw [stored_deleted hdel]
      have hgone : droppedRows c t.deletions (writtenRows types c (t.indexEntries types)
          (t.backend.classRows (types.info c) c)) n = none := by
        by_cases hmine : (n, c) ∈ t.deletions
        · exact droppedRows_of_mem _ _ hmine
        · rw [droppedRows_other _ _ hmine, writtenRows_other]
          · refine classRows_none fun rec hget hcls => hmine ?_
            rcases (Dict.mem_keys_iff _ _).mp hdel with ⟨⟨d, obj⟩, hd⟩
            have hkind := (h.objects.isDeleted n d obj hd).1.2
            rw [(h.storage.shape hget).2, Option.some.injEq, ← hkind] at hcls
            exact mem_deletions.mpr ⟨obj, hcls ▸ hd⟩
          · intro e he _ hn
            rcases mem_indexEntries.mp he with ⟨o, hko, -⟩
            exact pending_not_deleted hko (hn ▸ hdel)
      rw [hgone]
      exact ⟨rfl, fun f hf => rfl⟩
    · have hmine : (n, c) ∉ t.deletions := by
        intro hmem
        rcases mem_deletions.mp hmem with ⟨obj, hobj⟩
        exact hdel ((Dict.mem_keys_iff _ _).mpr ⟨_, hobj⟩)
      rw [droppedRows_other _ _ hmine]
      -- Pending: stored under its class, with an index entry if the class keeps fields.
      by_cases hpend : n ∈ t.pending.keys
      · rcases (Dict.mem_keys_iff _ _).mp hpend with ⟨o, ho⟩
        have hko : (n, o) ∈ t.pending.entries := (Dict.get?_eq_some_iff _ _ _).mp ho
        have hone : ∀ e ∈ t.indexEntries types, e.1 = n → e.2.1 = (t.heap.get o).cls := by
          intro e he hn
          rcases mem_indexEntries.mp he with ⟨o', hko', hcls, -⟩
          have hsame : o' = o := t.pending.value_unique (hn ▸ hko') hko
          rw [hcls, hsame]
        by_cases hcls : (t.heap.get o).cls = c
        · rcases stored_pending h hb hko hcls with ⟨row, hrow, hkeys⟩
          rw [hrow]
          by_cases hno : (types.info c).maintainedFields = []
          · -- no entry, so the row must have been there
            have hold : (t.backend.classRows (types.info (t.heap.get o).cls)
                (t.heap.get o).cls n).isSome := pending_row h hko (hseen hno (n, o) hko hcls)
            rw [hcls] at hold
            rw [writtenRows_other]
            · refine ⟨hold.symm, fun f hf => ?_⟩
              rw [hno] at hf
              exact absurd hf List.not_mem_nil
            · intro e he hec hn
              rcases mem_indexEntries.mp he with ⟨o', -, hcls', -, hsome⟩
              unfold info at hsome
              rw [← hcls', hec] at hsome
              exact hsome hno
          · have hentry : (n, c, entryOf (types.info c) (t.heap.get o).field) ∈
                t.indexEntries types := by
              refine mem_indexEntries.mpr ⟨o, hko, hcls.symm, ?_, ?_⟩
              · unfold info
                rw [hcls]
              · unfold info
                rw [hcls]
                exact hno
            have hwritten : writtenRows types c (t.indexEntries types)
                (t.backend.classRows (types.info c) c) n = some (entryKeys types
                  (n, c, entryOf (types.info c) (t.heap.get o).field)) :=
              writtenRows_of_mem (t.indexEntries types) rfl _ (indexEntries_nodup t) hentry
            rw [hwritten]
            refine ⟨rfl, fun f hf => ?_⟩
            rw [recalled_some, recalled_some, hkeys f hf]
            exact (rowKeys_congr (entryValue_entryOf _ hf)).symm
        · rw [stored_pending_other h hb hko hcls, writtenRows_other, pending_other h hko hcls]
          · exact ⟨rfl, fun f hf => rfl⟩
          · intro e he hec hn
            exact hcls ((hone e he hn).symm.trans hec)
      -- Neither: the batch and the entries both leave its row alone.
      · rw [stored_other h hb hdel hpend, writtenRows_other]
        · exact ⟨rfl, fun f hf => rfl⟩
        · intro e he _ hn
          rcases mem_indexEntries.mp he with ⟨o, hko, -⟩
          refine hpend (hn ▸ ?_)
          exact (Dict.mem_keys_iff _ _).mpr ⟨o, (Dict.get?_eq_some_iff _ _ _).mpr hko⟩
  exact ⟨fun n => (hcase n).1, fun n => (hcase n).2⟩

variable {m : IndexManager} {s₁ : Store}

/-- A class none of whose entities a commit touches keeps its rows. -/
theorem untouched_rows (h : Coherent kind t) (hb : BatchOk types t t.pending.entries t out)
    (hseen : (types.info c).maintainedFields = [] → ∀ e ∈ t.pending.entries,
      (t.heap.get e.2).cls = c → t.backend.objects.get? e.1 ≠ none)
    (hentries : ∀ e ∈ t.indexEntries types, e.2.1 ≠ c) (hdel : ∀ d ∈ t.deletions, d.2 ≠ c) :
    SameKeys (types.info c) (t.backend.classRows (types.info c) c)
      ((t.backend.apply (t.buildBatch out)).classRows (types.info c) c) := by
  have hfold := folded_rows h hb hseen
  have hid : droppedRows c t.deletions (writtenRows types c (t.indexEntries types)
      (t.backend.classRows (types.info c) c)) = t.backend.classRows (types.info c) c := by
    funext n
    rw [droppedRows_other _ _ fun hmem => hdel _ hmem rfl,
      writtenRows_other _ _ _ fun e he hc => absurd hc (hentries e he)]
  rwa [hid] at hfold

/-- A class of the commit has no index it could be missing in. -/
theorem NoneUnseen.stored (hseen : NoneUnseen P types t) (hP : P c)
    (hidx : t.index.byCls.get? c ≠ none ∨ t.index.blobOf c ≠ none) :
    (types.info c).maintainedFields = [] → ∀ e ∈ t.pending.entries,
      (t.heap.get e.2).cls = c → t.backend.objects.get? e.1 ≠ none := by
  intro hno e he hcls hgone
  have hboth := hseen e he (hcls ▸ hP) (by unfold info; rw [hcls]; exact hno) hgone
  rw [hcls] at hboth
  rcases hidx with hne | hne
  · exact hne hboth.1
  · exact hne hboth.2

/-- A built index stands for the rows behind the commit. -/
theorem folded_represents (h : Coherent kind t) (hb : BatchOk types t t.pending.entries t out)
    (hbuf : BuffersConform fam types t)
    (huniq : UniqueOk types (t.indexEntries types) t.deleted.keys t.index)
    (hseen : NoneUnseen P types t) (hP : P c)
    (happly : IndexManager.apply (t.indexEntries types) t.index = .ok () m) {ci : ClassIndexes}
    (hci : t.index.byCls.get? c = some ci) (hstands : StandsFor fam types t.backend c ci) :
    ∃ ci', (m.applyDeletes t.deletions).byCls.get? c = some ci' ∧
      StandsFor fam types (t.backend.apply (t.buildBatch out)) c ci' := by
  have hentries : (t.indexEntries types).forM applyEntry
      (t.index.invalidateReverseBlob (!(t.indexEntries types).isEmpty)) = .ok () m := by
    unfold IndexManager.apply at happly
    rw [bind_run_ok (modify_run _ _)] at happly
    exact happly
  have hci₀ : (t.index.invalidateReverseBlob (!(t.indexEntries types).isEmpty)).byCls.get? c =
      some ci := by
    rw [(invalidateReverseBlob_frame _ _).1]
    exact hci
  -- The keys the commit brings are free, but for the records it deletes.
  have hlost : Represents (types.info c) (t.backend.classRows (types.info c) c)
      (fun _ _ n => n ∈ t.deleted.keys) ci :=
    represents_mono hstands.represents fun f k n _ hno => absurd hno id
  have hfree : ∀ e ∈ t.indexEntries types, e.2.1 = c → ∀ f ∈ (types.info c).uniqueFields, ∀ k n,
      some k ∈ entryKeys types e f → n ≠ e.1 →
      some k ∈ recalled (t.backend.classRows (types.info c) c n) f → n ∈ t.deleted.keys := by
    intro e he hec f hf k n hk hn hrow
    have hheld := hstands.represents.held f hf k n hrow id
    rcases huniq.free e he ci (hec ▸ hci) f (hec ▸ hf) k hk n hheld with hdel | hsame
    · exact hdel
    · exact absurd hsame hn
  have hdist : ∀ e ∈ t.indexEntries types, ∀ e' ∈ t.indexEntries types, e.2.1 = c → e'.2.1 = c →
      ∀ f ∈ (types.info c).uniqueFields, ∀ k, some k ∈ entryKeys types e f →
        some k ∈ entryKeys types e' f → e.1 = e'.1 :=
    fun e he e' he' hec hec' f hf k hk hk' =>
      huniq.distinct e he e' he' (hec.trans hec'.symm) f (hec ▸ hf) k hk hk'
  rcases applyEntries_represents (t.indexEntries types) hci₀ hlost hstands.sound hstands.done
    hbuf.entries hfree hdist hentries with ⟨ci₁, hci₁, hrep₁, hs₁, hdone₁⟩
  rcases applyDeletes_represents t.deletions hci₁ hrep₁ hs₁ hdone₁ with
    ⟨ci₂, hci₂, hrep₂, hs₂, hdone₂⟩
  refine ⟨ci₂, hci₂, ?_, hs₂, hdone₂⟩
  have hsame := folded_rows h hb (hseen.stored hP (Or.inl (by rw [hci]; simp)))
  refine represents_congr (represents_mono hrep₂ fun f k n hrow hdel => ?_) hsame
  -- A deleted record has no row left.
  have hgone := hsame.present n
  rw [stored_deleted hdel] at hgone
  cases hfinal : droppedRows c t.deletions (writtenRows types c (t.indexEntries types)
      (t.backend.classRows (types.info c) c)) n with
  | none => rw [hfinal] at hrow; exact absurd hrow List.not_mem_nil
  | some row => rw [hfinal] at hgone; cases hgone

/-- The third phase keeps the indexes faithful. -/
theorem foldRest_faithful (h : Coherent kind t) (hb : BatchOk types t t.pending.entries t out)
    (hbuf : BuffersConform fam types t)
    (huniq : UniqueOk types (t.indexEntries types) t.deleted.keys t.index)
    (hseen : NoneUnseen P types t) (hidx : t.index.Faithful P fam types t.backend)
    (happly : IndexManager.apply (t.indexEntries types) t.index = .ok () m) :
    (foldRest (captured types s₁ t out) m).Faithful P fam types
      (t.backend.apply (t.buildBatch out)) := by
  -- The entries are folded first, then the reverse entries, then the deletes. Only the first and
  -- the last touch what is kept of a class.
  have hentries : (t.indexEntries types).forM applyEntry
      (t.index.invalidateReverseBlob (!(t.indexEntries types).isEmpty)) = .ok () m := by
    unfold IndexManager.apply at happly
    rw [bind_run_ok (modify_run _ _)] at happly
    exact happly
  have hstart := invalidateReverseBlob_frame (!(t.indexEntries types).isEmpty) t.index
  have hblobStart : ∀ c, (t.index.invalidateReverseBlob
      (!(t.indexEntries types).isEmpty)).blobOf c = t.index.blobOf c := by
    intro c
    unfold blobOf
    rw [hstart.2]
  have hfold : (m.applyDeletes t.deletions).Faithful P fam types
      (t.backend.apply (t.buildBatch out)) := by
    constructor
    · intro c ci hP hci
      cases hold : t.index.byCls.get? c with
      | some ci₀ =>
          rcases folded_represents h hb hbuf huniq hseen hP happly hold (hidx.built c ci₀ hP hold)
            with ⟨ci', hci', hstands⟩
          rw [hci, Option.some.injEq] at hci'
          rw [hci']
          exact hstands
      | none =>
          -- Folding makes no index.
          have hkeep := applyEntries_none (t.indexEntries types) hentries
            (c := c) (by rw [hstart.1]; exact hold)
          rw [applyDeletes_none t.deletions hkeep] at hci
          cases hci
    -- A blob still cached at the end was there before, so no entry and no delete was of its class.
    · intro c blob hP hno hblob hmatch
      rcases applyDeletes_unbuilt t.deletions hno hblob with ⟨hno₁, hblob₁, hdels⟩
      rcases applyEntries_unbuilt (t.indexEntries types) hentries hno₁ hblob₁ with
        ⟨hno₀, hblob₀, hents⟩
      rw [hstart.1] at hno₀
      rw [hblobStart] at hblob₀
      refine (hidx.cached c blob hP hno₀ hblob₀ hmatch).transfer hmatch ?_
      exact untouched_rows h hb (hseen.stored hP (Or.inr (by rw [hblob₀]; simp))) hents hdels
  -- The reverse entries change no class index and no cached blob.
  have hrev := m.applyReverse_frame (captured types s₁ t out).refEntries
  have hrest : ((m.applyReverse (captured types s₁ t out).refEntries).applyDeletes
      t.deletions).byCls = (m.applyDeletes t.deletions).byCls ∧
      ((m.applyReverse (captured types s₁ t out).refEntries).applyDeletes
        t.deletions).cacheBlobs = (m.applyDeletes t.deletions).cacheBlobs :=
    applyDeletes_frame t.deletions hrev.1 hrev.2
  have hrem := removeReverse_frame (t.deleted.entries.map Prod.fst)
    ((m.applyReverse (captured types s₁ t out).refEntries).applyDeletes t.deletions)
  exact hfold.congr (hrem.1.trans hrest.1) (hrem.2.trans hrest.2)

/-- The records of a commit conform if its entities do. -/
theorem stored_conform (h : Coherent kind t) (hb : BatchOk types t t.pending.entries t out)
    (hconf : RowsConform fam types t.backend) (hbuf : BuffersConform fam types t) :
    RowsConform fam types (t.backend.apply (t.buildBatch out)) := by
  intro c rec hrec
  rcases stored_recordOf h hb hrec with ⟨hold, -, -, hrow⟩ | ⟨o, ho, rfl, henc, hnames⟩
  · rw [hrow]
    exact hconf c rec hold
  · have hfields := hbuf (rec.oid, o) ho
    have heqIndex : ∀ f ∈ (types.info (t.heap.get o).cls).eqIndexFields,
        f ∈ (types.info (t.heap.get o).cls).maintainedFields :=
      fun f hf => (TypeInfo.mem_maintainedFields _ f).mpr (Or.inl hf)
    rw [Backend.rowOf, hnames]
    refine ⟨fun f hf => ?_, fun f hf => ?_, fun f hf k hk => ?_, fun f hf k hk => ?_⟩
    · rw [encodedAs_indexKeys henc hf, encodedAs_rowKeys henc hf]
      exact hfields.keyed f hf
    · rw [encodedAs_rowKeys henc (heqIndex f (TypeInfo.eqIndexFields_of_list _ hf))]
      exact hfields.elements f hf
    · rw [encodedAs_rowKeys henc hf] at hk
      exact hfields.noNan f hf k hk
    · rw [encodedAs_rowKeys henc (heqIndex f (TypeInfo.eqIndexFields_of_sorted _ hf))] at hk
      exact hfields.ordered f hf k hk

/-- No commit stores a unique key twice. -/
theorem stored_distinct (h : Coherent kind t) (hb : BatchOk types t t.pending.entries t out)
    (hP : ∀ c, (types.info c).maintainedFields ≠ [] → P c) (hbuf : BuffersConform fam types t)
    (huniq : UniqueOk types (t.indexEntries types) t.deleted.keys t.index)
    (hseen : NoneUnseen P types t) (hidx : t.index.Faithful P fam types t.backend)
    (happly : IndexManager.apply (t.indexEntries types) t.index = .ok () m)
    (hdist : ∀ c, Distinct (types.info c) (t.backend.classRows (types.info c) c)) (c : String) :
    Distinct (types.info c) ((t.backend.apply (t.buildBatch out)).classRows (types.info c) c) := by
  -- A class without unique fields has nothing to show.
  by_cases hunique : (types.info c).uniqueFields = []
  · intro f hf
    rw [hunique] at hf
    exact absurd hf List.not_mem_nil
  have hmaint : (types.info c).maintainedFields ≠ [] := by
    rcases List.exists_mem_of_ne_nil _ hunique with ⟨f, hf⟩
    exact List.ne_nil_of_mem ((TypeInfo.mem_maintainedFields _ f).mpr (Or.inr hf))
  cases hold : t.index.byCls.get? c with
  | some ci =>
      rcases folded_represents h hb hbuf huniq hseen (hP c hmaint) happly hold
        (hidx.built c ci (hP c hmaint) hold) with ⟨ci', -, hstands⟩
      exact distinct_of_represents hstands.represents
  | none =>
      -- The check would have made the index of a class with an entry.
      have hents : ∀ e ∈ t.indexEntries types, e.2.1 ≠ c := by
        intro e he hec
        rcases huniq.built e he (hec ▸ hunique) with ⟨ci, hci⟩
        rw [hec, hold] at hci
        cases hci
      -- Without an entry and without a pending entity of the class, its rows only get fewer.
      have hrows : ∀ n row,
          (t.backend.apply (t.buildBatch out)).classRows (types.info c) c n = some row →
          t.backend.classRows (types.info c) c n = some row := by
        intro n row hrow
        by_cases hdel : n ∈ t.deleted.keys
        · rw [stored_deleted hdel] at hrow
          cases hrow
        by_cases hpend : n ∈ t.pending.keys
        · rcases (Dict.mem_keys_iff _ _).mp hpend with ⟨o, ho⟩
          have hko : (n, o) ∈ t.pending.entries := (Dict.get?_eq_some_iff _ _ _).mp ho
          by_cases hcls : (t.heap.get o).cls = c
          · have hentry : (n, (t.heap.get o).cls,
                entryOf (t.info types o) (t.heap.get o).field) ∈ t.indexEntries types := by
              refine mem_indexEntries.mpr ⟨o, hko, rfl, rfl, ?_⟩
              unfold info
              rw [hcls]
              exact hmaint
            exact absurd hcls (hents _ hentry)
          · rw [stored_pending_other h hb hko hcls] at hrow
            cases hrow
        · rw [stored_other h hb hdel hpend] at hrow
          exact hrow
      intro f hf k n n' hn hn'
      refine hdist c f hf k n n' ?_ ?_
      · cases hrow : (t.backend.apply (t.buildBatch out)).classRows (types.info c) c n with
        | none => rw [hrow] at hn; exact absurd hn List.not_mem_nil
        | some row => rw [hrow] at hn; rw [hrows n row hrow]; exact hn
      · cases hrow : (t.backend.apply (t.buildBatch out)).classRows (types.info c) c n' with
        | none => rw [hrow] at hn'; exact absurd hn' List.not_mem_nil
        | some row => rw [hrow] at hn'; rw [hrows n' row hrow]; exact hn'

end Rows

/-- The indexes and the records of a store: every index stands for the rows of its
    class, the records conform, and no unique key is held twice. A commit that
    stores its batch keeps this if what it writes conforms. -/
structure Indexed (P : String → Prop) (fam : String → String → Family) (types : Types)
    (s : Store) : Prop where
  index : s.index.Faithful P fam types s.backend
  conform : RowsConform fam types s.backend
  distinct : ∀ c, Distinct (types.info c) (s.backend.classRows (types.info c) c)

theorem Indexed.rebuildable (h : Indexed P fam types s) (hfam : ∀ c f, fam c f ≠ .nan)
    (ht : Tidy (Kin.ofFamilies fam) types s) (hin : InStep s) : Rebuildable fam types s :=
  ⟨hfam, hin.rows, ht.shapes, h.conform, h.distinct⟩

theorem Indexed.congr (h : Indexed P fam types s) (hi : t.index = s.index)
    (hb : t.backend = s.backend) : Indexed P fam types t :=
  ⟨by rw [hi, hb]; exact h.index, hb ▸ h.conform, hb ▸ h.distinct⟩

/-- An operation can only make an index. -/
theorem prepares_indexed (hfam : ∀ c f, fam c f ≠ .nan) (hstep : Prepares types p s t)
    (hc : Coherent kind s) (ht : Tidy (Kin.ofFamilies fam) types s) (hin : InStep s)
    (h : Indexed P fam types s) : Indexed P fam types t := by
  rcases prepares_kinds hstep with hsame | ⟨m, hm, rfl⟩ | rfl | ⟨c, rfl⟩
  · exact h.congr hsame.index hsame.backend
  · have hm' : m.Faithful P fam types s.backend :=
      ensures_faithful hm h.index (h.rebuildable hfam ht hin) hc.storage
    exact ⟨hm', h.conform, h.distinct⟩
  · refine ⟨?_, h.conform, h.distinct⟩
    unfold IndexManager.ensureReverse
    split
    · exact h.index
    · split <;> exact h.index.congr rfl rfl
  · exact h.congr rfl rfl

/-- Operations keep the indexes of a store faithful. -/
theorem prepared_indexed (hfam : ∀ c f, fam c f ≠ .nan)
    (hrun : Relation.ReflTransGen (Prepares types p) s t) (hc : Coherent kind s)
    (ht : Tidy (Kin.ofFamilies fam) types s) (hin : InStep s) (h : Indexed P fam types s) :
    Indexed P fam types t := by
  have hall : Coherent kind t ∧ Tidy (Kin.ofFamilies fam) types t ∧ InStep t ∧ Indexed P fam types t :=
    reflTransGen_invariant
      (I := fun u => Coherent kind u ∧ Tidy (Kin.ofFamilies fam) types u ∧ InStep u ∧ Indexed P fam types u)
      (fun _ _ hst hs => ⟨prepares_coherent hst hs.1, prepares_tidy hst hs.1 hs.2.1,
        prepares_inStep hst hs.1 hs.2.2.1,
        prepares_indexed hfam hst hs.1 hs.2.1 hs.2.2.1 hs.2.2.2⟩) hrun ⟨hc, ht, hin, h⟩
  exact hall.2.2.2

variable {s₁ : Store} {m : IndexManager} {out : EncodedBatch}

/-- The check of the unique keys leaves the indexes of other classes alone. -/
theorem checkUnique_other {b : Backend} {lineage : String → Lineage} {entries : List IndexEntry}
    {deleted : List Nat} {m m' : IndexManager}
    (hrun : checkUnique types b lineage entries deleted m = .ok () m')
    (hno : (types.info c).uniqueFields = []) :
    m'.byCls.get? c = m.byCls.get? c ∧ m'.cacheBlobs = m.cacheBlobs := by
  have hmoves : Moves (fun m m' : IndexManager =>
      m'.byCls.get? c = m.byCls.get? c ∧ m'.cacheBlobs = m.cacheBlobs)
      (checkUnique types b lineage entries deleted) := by
    refine moves_bind (moves_foldlM (fun seen e => ?_) _ _) fun _ => moves_pure _
    by_cases hnone : (types.info e.2.1).uniqueFields = []
    · unfold checkUniqueEntry
      rw [if_pos (by rw [hnone]; rfl)]
      exact moves_pure _
    · have hne : c ≠ e.2.1 := fun hc => hnone (hc ▸ hno)
      have hset : ∀ ci m, (setCls e.2.1 ci m).byCls.get? c = m.byCls.get? c ∧
          (setCls e.2.1 ci m).cacheBlobs = m.cacheBlobs :=
        fun ci m => ⟨Dict.get?_set_ne _ _ hne, rfl⟩
      refine moves_ite (moves_pure _) (moves_bind (moves_bind moves_get fun m => ?_) fun _ =>
        moves_ofExcept _)
      split
      · exact moves_pure _
      · refine moves_bind (moves_ofExcept _) fun loaded => ?_
        split
        · exact moves_bind (moves_modify (hset _)) fun _ => moves_pure _
        · exact moves_bind (moves_ofExcept _) fun _ =>
            moves_bind (moves_modify (hset _)) fun _ => moves_pure _
  have hinv := moves_invariant (I := fun m₁ : IndexManager =>
    m₁.byCls.get? c = m.byCls.get? c ∧ m₁.cacheBlobs = m.cacheBlobs) hmoves
    (fun _ _ hst hs => ⟨hst.1.trans hs.1, hst.2.trans hs.2⟩) (s := m) ⟨rfl, rfl⟩
  rw [hrun] at hinv
  exact hinv

/-- What discovery left in the buffers is what is captured. -/
theorem Captured.conform (hc : Captured types p s s₁ m out t) (h : BuffersConform fam types s₁) :
    BuffersConform fam types t := by
  rcases hc.frame with ⟨a, rows, rfl, -⟩
  exact h

theorem Captured.noneUnseen (hc : Captured types p s s₁ m out t) (h : NoneUnseen P types s₁) :
    NoneUnseen P types t := by
  rcases hc.frame with ⟨a, rows, rfl, -⟩
  intro e he hP hno hgone
  have hunique : (types.info (s₁.heap.get e.2).cls).uniqueFields = [] := by
    rw [List.eq_nil_iff_forall_not_mem]
    intro f hf
    have hm := (TypeInfo.mem_maintainedFields _ f).mpr (Or.inr hf)
    unfold info at hno
    rw [hno] at hm
    exact absurd hm List.not_mem_nil
  rcases checkUnique_other hc.unique hunique with ⟨hcls, hblobs⟩
  rcases h e he hP hno hgone with ⟨hbuilt, hcached⟩
  refine ⟨hcls.trans hbuilt, ?_⟩
  unfold blobOf at hcached ⊢
  rw [hblobs]
  exact hcached

theorem Captured.uniqueOk (hc : Captured types p s s₁ m out t) (h : BuffersConform fam types s₁) :
    UniqueOk types (t.indexEntries types) t.deleted.keys t.index := by
  have hunique := checkUnique_ok h.keyed hc.unique
  rcases hc.frame with ⟨a, rows, rfl, -⟩
  exact hunique

/-- A commit that completes keeps the indexes faithful. -/
theorem finalize_indexed (hc : Coherent kind t) (hb : BatchOk types t t.pending.entries t out)
    (hP : ∀ c, (types.info c).maintainedFields ≠ [] → P c) (h : Indexed P fam types t)
    (hbuf : BuffersConform fam types t)
    (huniq : UniqueOk types (t.indexEntries types) t.deleted.keys t.index)
    (hseen : NoneUnseen P types t) {u : Store} {tid : Nat}
    (hrun : p3Finalize (captured types s₁ t out)
      (applyBatch (captured types s₁ t out).batch (t.settle types)) = .ok tid u) :
    Indexed P fam types u := by
  rcases p3Finalize_ok hrun with ⟨m, hp, r, pl, happly, -, rfl⟩
  exact ⟨foldRest_faithful hc hb hbuf huniq hseen h.index happly,
    stored_conform hc hb h.conform hbuf,
    stored_distinct hc hb hP hbuf huniq hseen h.index happly h.distinct⟩

/-- However a commit ends, the indexes stand for the records. -/
theorem ends_indexed (hfam : ∀ c f, fam c f ≠ .nan) {fault : Bool} {u : Store}
    (hends : Ends types p fault s u) (hc : Coherent kind s) (ht : Tidy (Kin.ofFamilies fam) types s)
    (hin : InStep s) (hP : ∀ c, (types.info c).maintainedFields ≠ [] → P c)
    (h : Indexed P fam types s)
    (hcond : ∀ s₁, discoverNewGraphs types p s = .ok () s₁ →
      BuffersConform fam types s₁ ∧ NoneUnseen P types s₁) : Indexed P fam types u := by
  rcases hends with hprep | ⟨s₁, m, out, t, hcap, rfl⟩
  · exact prepared_indexed hfam hprep hc ht hin h
  · have hti := prepared_indexed hfam hcap.prepares hc ht hin h
    have htc := hcap.coherent hc
    cases fault with
    | true =>
        rcases rollback_spec types (s₁.refEntries types) out htc with ⟨_, _, _, _, _, heq, -⟩
        rw [if_pos rfl, captured, heq]
        exact hti.congr rfl rfl
    | false =>
        rw [if_neg (by decide)]
        rcases hcond s₁ hcap.discovered with ⟨hbuf, hseen⟩
        have htidy := prepared_tidy hcap.prepares hc ht
        rcases p3Finalize_completes htc (hcap.batchOk hc) htidy (hcap.conform hbuf).sortable s₁ with
          ⟨u, hrun, -, -, -⟩
        rw [hrun]
        exact finalize_indexed htc (hcap.batchOk hc) hP hti (hcap.conform hbuf)
          (hcap.uniqueOk hbuf) (hcap.noneUnseen hseen) hrun

theorem discard_indexed (h : Indexed P fam types s) : Indexed P fam types s.discard := by
  have hb := backend_discard s
  refine ⟨⟨fun c ci hP hci => ?_, fun c blob hP hno hblob => ?_⟩, ?_, ?_⟩
  · cases hci
  · cases hblob
  · rw [hb]
    exact h.conform
  · rw [hb]
    exact h.distinct

end Store

end DataCrystal
