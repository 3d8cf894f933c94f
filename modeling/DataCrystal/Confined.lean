import DataCrystal.SnapshotReads

/-!
# What a Principal Learns

Two stores may differ in any rows a principal cannot read: in what they hold, in
how many there are, in how they came about. As long as the rows the principal may
read are the same, every read gives it the same answer. The condition, the order
and the window are looked at on the readable rows alone, so nothing about the
others is to be had by asking for different ones.

The reads are compared where they answer. An exception is another matter: a key
of a row that cannot be read is still a key of the index.

## Main definitions

* `SameReadable`: A principal may read the same rows of a class.

## Theorems

* `listing_same`: The listings of the same rows are the same.
* `Watched.pluck_confined`: The reads of two stores.
* `Watched.query_confined`: The reads of their snapshots.
-/

namespace DataCrystal

section Rows

variable {ρ : Type} [DecidableEq ρ] {ti : TypeInfo} {rows rows' : Rows} {lost : Lost}
  {view view' : Nat → String → Val ρ} {oid : Nat}

/-- Whether a condition keeps a row is a matter of the row. -/
theorem kept_congr (hrows : ∀ f ∈ ti.uniqueFields, recalled (rows oid) f = recalled (rows' oid) f)
    (hview : view oid = view' oid) (c : Cond ρ) :
    Kept ti rows lost view oid c ↔ Kept ti rows' lost view' oid c := by
  induction c using Cond.induction_parts with
  | hpred f t =>
      have hloses : LosesRow ti rows lost oid f t ↔ LosesRow ti rows' lost oid f t := by
        unfold LosesRow
        refine and_congr_right fun _ => and_congr_right fun hf => ?_
        rw [hrows f hf]
      rw [Kept, Kept, hloses, hview]
  | hand ps ih =>
      rw [Kept, Kept]
      induction ps with
      | nil => exact Iff.rfl
      | cons c cs ihc =>
          rw [Kept.keptAll, Kept.keptAll, ih c List.mem_cons_self,
            ihc fun d hd => ih d (List.mem_cons_of_mem c hd)]
  | hor ps ih =>
      have hany : Kept.keptAny ti rows lost view oid ps ↔
          Kept.keptAny ti rows' lost view' oid ps := by
        induction ps with
        | nil => exact Iff.rfl
        | cons c cs ihc =>
            rw [Kept.keptAny, Kept.keptAny, ih c List.mem_cons_self,
              ihc fun d hd => ih d (List.mem_cons_of_mem c hd)]
      rw [Kept, Kept, hany, hview]
  | hnot c ih => rw [Kept, Kept, hview]

omit [DecidableEq ρ] in
/-- The listings of the same rows are the same. -/
theorem listing_same {S S' : Nat → Prop} {order : Option (String × Bool)} {fm : Family}
    (hS : ∀ oid, S oid ↔ S' oid) (hview : ∀ oid, S oid → view oid = view' oid)
    (hord : Orders order view' S' fm) {xs xs' : List Nat} (hxs : Listing order view S xs)
    (hxs' : Listing order view' S' xs') : xs = xs' := by
  refine listing_unique hord ⟨fun oid => (hxs.mem oid).trans (hS oid), ?_⟩ hxs'
  refine List.Pairwise.imp_of_mem ?_ hxs.arranged
  intro a b ha hb hab
  simp only [Precedes, orderedBy, hview a ((hxs.mem a).mp ha), hview b ((hxs.mem b).mp hb)] at hab ⊢
  exact hab

end Rows

namespace Store

/-- A principal may read the same rows of a class in two stores, and they show the
    same values there. Of the rows the principal may not read nothing is said. -/
structure SameReadable (types : Types) (p : Principal) (c : String) (s s' : Store) : Prop where
  rows : ∀ oid, s.matching types p c none oid ↔ s'.matching types p c none oid
  values : ∀ oid, s.matching types p c none oid →
    s.rawView (types.info c) oid = s'.rawView (types.info c) oid

section Same

variable {types : Types} {kind kind' : Nat → String} {s s' : Store} {p : Principal} {c : String}

/-- The keys of a row are those of its values. -/
theorem recalled_row (hs : StorageOk kind s) (hdec : s.Decodes types c) {oid : Nat}
    (hrow : (s.backend.classRows (types.info c) c oid).isSome) {f : String}
    (hf : f ∈ (types.info c).maintainedFields) :
    recalled (s.backend.classRows (types.info c) c oid) f =
      rowKeys (types.info c) (s.rawView (types.info c) oid) f := by
  rcases record_of_row hs hrow with ⟨rec, hrec, rfl, hkeys⟩
  rw [hkeys, recalled_some]
  exact rowKeys_congr ((rawRow_ok hs hdec hrec).2 f (mem_fieldNames_of_maintained hf)).symm

/-- A condition on values that are made of the rows keeps the same of them. -/
theorem SameReadable.matching (h : SameReadable types p c s s') (hs : StorageOk kind s)
    (hs' : StorageOk kind' s') (hdec : s.Decodes types c) (hdec' : s'.Decodes types c)
    {g : Val Token → Val Token} (cond : Option (Cond Token)) (oid : Nat) :
    Matching (types.info c) (s.backend.classRows (types.info c) c) noneLost
        (fun n f => g (s.rawView (types.info c) n f)) (s.labelsOf (types.info c)) p cond oid ↔
      Matching (types.info c) (s'.backend.classRows (types.info c) c) noneLost
        (fun n f => g (s'.rawView (types.info c) n f)) (s'.labelsOf (types.info c)) p cond
        oid := by
  have hkept : s.matching types p c none oid → ∀ d,
      (Kept (types.info c) (s.backend.classRows (types.info c) c) noneLost
          (fun n f => g (s.rawView (types.info c) n f)) oid d ↔
        Kept (types.info c) (s'.backend.classRows (types.info c) c) noneLost
          (fun n f => g (s'.rawView (types.info c) n f)) oid d) := by
    intro hread d
    have hsame := h.values oid hread
    refine kept_congr (fun f hf => ?_) (by rw [hsame]) d
    have hmaint := ((types.info c).mem_maintainedFields f).mpr (Or.inr hf)
    rw [recalled_row hs hdec hread.row hmaint,
      recalled_row hs' hdec' ((h.rows oid).mp hread).row hmaint, hsame]
  constructor
  · intro hm
    have hread : s.matching types p c none oid := ⟨hm.row, fun d hd => (nomatch hd), hm.readable⟩
    have hread' := (h.rows oid).mp hread
    exact ⟨hread'.row, fun d hd => (hkept hread d).mp (hm.kept d hd), hread'.readable⟩
  · intro hm
    have hread' : s'.matching types p c none oid :=
      ⟨hm.row, fun d hd => (nomatch hd), hm.readable⟩
    have hread := (h.rows oid).mpr hread'
    exact ⟨hread.row, fun d hd => (hkept hread d).mpr (hm.kept d hd), hread.readable⟩

/-- The readable rows of a class are those of some OIDs. -/
theorem matching_of_entries (hs : StorageOk kind s) {oids : List Nat}
    (hin : ∀ e ∈ s.backend.objects.entries, s.backend.typenameOf e.2.cid = some c →
      ((types.info c).isProtected = true → isRoot p = true ∨
        isOwner p (s.labelsOf (types.info c) e.1).owner = true ∨
        ∃ g ∈ (s.labelsOf (types.info c) e.1).groups, Held p g ∧
          (s.labelsOf (types.info c) e.1).readFloor ≤ level p g) → e.1 ∈ oids)
    (hback : ∀ oid ∈ oids, ∃ e ∈ s.backend.objects.entries, e.1 = oid ∧
      s.backend.typenameOf e.2.cid = some c ∧ ((types.info c).isProtected = true →
        isRoot p = true ∨ isOwner p (s.labelsOf (types.info c) e.1).owner = true ∨
        ∃ g ∈ (s.labelsOf (types.info c) e.1).groups, Held p g ∧
          (s.labelsOf (types.info c) e.1).readFloor ≤ level p g)) (oid : Nat) :
    s.matching types p c none oid ↔ oid ∈ oids := by
  constructor
  · intro hm
    rcases record_of_row hs hm.row with ⟨rec, hrec, rfl, -⟩
    exact hin _ ((Dict.get?_eq_some_iff _ _ _).mp hrec.1) hrec.2 hm.readable
  · intro hoid
    rcases hback oid hoid with ⟨e, he, rfl, hcls, hread⟩
    have hget := (Dict.get?_eq_some_iff _ _ _).mpr he
    refine ⟨?_, fun d hd => (nomatch hd), hread⟩
    rw [classRows_of_record hget hcls]
    rfl

end Same

end Store

namespace Watched

open Store

/-- A principal who may read the same rows of a class in two stores is shown the
    same by their snapshots. -/
theorem query_confined (fam : String → String → Family) (hfam : ∀ c f, fam c f ≠ .nan)
    (fills fills' : String → String → Option (Val Token)) (types types' : Types)
    (attached attached' : Bool) (events events' : List Event)
    (hrun : EachStep step (KeepsIndexed anyClass fam fills) (begin types attached) events)
    (hrun' : EachStep step (KeepsIndexed anyClass fam fills') (begin types' attached') events')
    (p : Principal) (c : String) (cond : Option (Cond Token)) (order : Option OrderBy)
    (parsed : Option (String × Bool)) (fm : Family) :
    let w := ((begin types attached).run events).world
    let w' := ((begin types' attached').run events').world
    w'.types = w.types → SameReadable w.types p c w.store w'.store →
    parseOrder order (w.types.info c) = .ok parsed →
    w.store.Viewable (fam c) w.types p c cond parsed fm →
    w'.store.Viewable (fam c) w.types p c cond parsed fm →
    (∀ (limit : Option Nat) (offset : Nat), ∃ views views' : List EntityView,
      w.store.snapshot.query w.types p c cond (limit.map Nat.cast) offset order = .ok views ∧
      w'.store.snapshot.query w.types p c cond (limit.map Nat.cast) offset order = .ok views' ∧
      views.map (fun v => (v.oid, v.value)) = views'.map fun v => (v.oid, v.value)) ∧
      ∃ n, w.store.snapshot.count w.types p c cond = .ok n ∧
        w'.store.snapshot.count w.types p c cond = .ok n := by
  intro w w' htypes hsame hparse h h'
  have hw : w.store.Reliable fam w.types := run_reliable hfam types attached events hrun
  have hw' : w'.store.Reliable fam w.types := by
    rw [← htypes]
    exact run_reliable hfam types' attached' events' hrun'
  rcases views_listing hw hparse h with ⟨xs, hlist, hshown, hquery, hcount, -⟩
  rcases views_listing hw' hparse h' with ⟨xs', hlist', hshown', hquery', hcount', -⟩
  rcases hw.storage with ⟨kind, hs⟩
  rcases hw'.storage with ⟨kind', hs'⟩
  have hmatch := hsame.matching (g := Val.freeze) hs hs' h.decodes h'.decodes
    (cond.map viewCondition)
  -- What the principal may read shows the same in both stores, frozen or not.
  have hview : ∀ oid, w.store.shownMatching w.types p c cond oid →
      w.store.shownView (w.types.info c) oid = w'.store.shownView (w.types.info c) oid := by
    intro oid hm
    have hraw := hsame.values oid ⟨hm.row, fun d hd => (nomatch hd), hm.readable⟩
    funext f
    rw [shownView, shownView, hraw]
  have hxs : xs = xs' := listing_same hmatch hview h'.orders hlist hlist'
  refine ⟨fun limit offset => ⟨_, _, hquery limit offset, hquery' limit offset, ?_⟩,
    xs.length, hcount, hxs ▸ hcount'⟩
  rw [← hxs, List.map_map, List.map_map]
  refine List.map_congr_left fun oid hoid => ?_
  have hin := mem_of_mem_applyWindow hoid
  rw [Function.comp_apply, Function.comp_apply, (hshown oid hin).1, (hshown oid hin).2,
    (hshown' oid (hxs ▸ hin)).1, (hshown' oid (hxs ▸ hin)).2, hview oid ((hlist.mem oid).mp hin)]

/-- A principal without standing. -/
def stranger : Principal := { uid := 6, memberships := Dict.empty }

/-- A note of its owner. -/
def ownNote : List (Principal × Op) :=
  [(noteOwner, .construct "note" []), (noteOwner, .store 0), (noteOwner, .commit false)]

/-- And one of somebody else, who shares it with nobody. -/
def foreignNote : List (Principal × Op) :=
  ownNote ++ [(stranger, .construct "note" []), (stranger, .store 1), (stranger, .commit false)]

/-- The owner may read the one note in either session. -/
theorem notes_sameReadable :
    let w := ((begin DataCrystal.noteTypes false).run (session ownNote)).world
    let w' := ((begin DataCrystal.noteTypes false).run (session foreignNote)).world
    SameReadable w.types noteOwner "note" w.store w'.store ∧
      w.store.Decodes w.types "note" ∧ w'.store.Decodes w.types "note" := by
  intro w w'
  have hone : ∀ oid, w.store.matching w.types noteOwner "note" none oid ↔ oid ∈ [oidBase] := by
    rcases run_coherent DataCrystal.noteTypes false (session ownNote) with ⟨kind, hc⟩
    exact matching_of_entries hc.store.storage (by decide +kernel) (by decide +kernel)
  have hone' : ∀ oid, w'.store.matching w.types noteOwner "note" none oid ↔ oid ∈ [oidBase] := by
    rcases run_coherent DataCrystal.noteTypes false (session foreignNote) with ⟨kind, hc⟩
    exact matching_of_entries hc.store.storage (by decide +kernel) (by decide +kernel)
  have hfields : ∀ e ∈ w.store.backend.objects.entries, w.store.backend.typenameOf e.2.cid =
      some "note" → ∀ f ∈ (w.types.info "note").fieldNames, f ∈ w.store.backend.fieldsOf e.2.cid := by
    decide +kernel
  have hfields' : ∀ e ∈ w'.store.backend.objects.entries, w'.store.backend.typenameOf e.2.cid =
      some "note" → ∀ f ∈ (w.types.info "note").fieldNames,
        f ∈ w'.store.backend.fieldsOf e.2.cid := by
    decide +kernel
  refine ⟨⟨fun oid => (hone oid).trans (hone' oid).symm, fun oid hoid => ?_⟩,
    fun rec hrec f hf hno => ?_, fun rec hrec f hf hno => ?_⟩
  · rw [hone, List.mem_singleton] at hoid
    have hget : w.store.backend.objects.get? oidBase = w'.store.backend.objects.get? oidBase := by
      decide +kernel
    have hrows : w.store.typeRows = w'.store.typeRows := by decide +kernel
    have hnames : w.store.persistedFields = w'.store.persistedFields := by
      funext cid
      rw [persistedFields, persistedFields, hrows]
    rw [hoid, rawView, rawView, rawRow, rawRow, hget, hnames]
  · exact absurd (hfields _ ((Dict.get?_eq_some_iff _ _ _).mp hrec.1) hrec.2 f hf) hno
  · exact absurd (hfields' _ ((Dict.get?_eq_some_iff _ _ _).mp hrec.1) hrec.2 f hf) hno

/-- The snapshots of either session show the owner the same. -/
theorem query_confined_on_notes :
    let w := ((begin DataCrystal.noteTypes false).run (session ownNote)).world
    let w' := ((begin DataCrystal.noteTypes false).run (session foreignNote)).world
    (∃ views views' : List EntityView,
      w.store.snapshot.query w.types noteOwner "note" none none 0 none = .ok views ∧
      w'.store.snapshot.query w.types noteOwner "note" none none 0 none = .ok views' ∧
      views.map (fun v => (v.oid, v.value)) = views'.map fun v => (v.oid, v.value)) ∧
      ∃ n, w.store.snapshot.count w.types noteOwner "note" none = .ok n ∧
        w'.store.snapshot.count w.types noteOwner "note" none = .ok n := by
  intro w w'
  have hrun : EachStep step (KeepsIndexed anyClass (fun _ _ => .number)
      fun c f => (DataCrystal.noteTypes.info c).fill f) (begin DataCrystal.noteTypes false)
      (session ownNote) :=
    ⟨trivial, trivial, by decide +kernel, trivial⟩
  have hrun' : EachStep step (KeepsIndexed anyClass (fun _ _ => .number)
      fun c f => (DataCrystal.noteTypes.info c).fill f) (begin DataCrystal.noteTypes false)
      (session foreignNote) :=
    ⟨trivial, trivial, by decide +kernel, trivial, trivial, by decide +kernel, trivial⟩
  rcases notes_sameReadable with ⟨hsame, hdec, hdec'⟩
  have htypes : w'.types = w.types := (session_types _ _ _).trans (session_types _ _ _).symm
  have hknown : (w.types.known "note").isSome := by
    have htypes : w.types = DataCrystal.noteTypes := session_types _ _ _
    rw [htypes]
    rfl
  rcases query_confined (fun _ _ => .number) (fun _ _ h => nomatch h) _ _ DataCrystal.noteTypes
    DataCrystal.noteTypes false false (session ownNote) (session foreignNote) hrun hrun' noteOwner
    "note" none none none .number htypes hsame rfl
    ⟨hknown, fun _ => rfl, hdec, fun d hd => (nomatch hd), fun d hd => (nomatch hd),
      ⟨by decide, fun o ho => (nomatch ho)⟩, fun o ho => (nomatch ho), fun _ _ o ho => (nomatch ho)⟩
    ⟨hknown, fun _ => rfl, hdec', fun d hd => (nomatch hd), fun d hd => (nomatch hd),
      ⟨by decide, fun o ho => (nomatch ho)⟩, fun o ho => (nomatch ho), fun _ _ o ho => (nomatch ho)⟩
    with ⟨hquery, hcount⟩
  exact ⟨hquery none 0, hcount⟩

end Watched

end DataCrystal
