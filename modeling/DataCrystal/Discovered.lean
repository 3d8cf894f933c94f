import DataCrystal.Hints
import DataCrystal.Refused

/-!
# Discovery Is Complete

Before a commit encodes anything it walks from every buffered entity and registers
what is new. The walk stops at entities that are settled, so what it finds is what
can be reached through entities that are unregistered or buffered themselves. All
of that has an OID afterwards, and what had none is in the commit. So the encoding
meets no entity without an OID.

An entity whose insert was taken back is settled as well: it keeps its OID, and
an entity that still refers to it is stored with a dangling reference. So not
everything that can be reached and was never stored is in the commit.

The walks share their marks, and an OID is one mark. Nothing is said about two
objects that carry one buffered OID.

## Main definitions

* `Follows`: The references that discovery follows.
* `NeverStored`: An entity that waits for its first commit.

## Theorems

* `discovery_complete`: What discovery finds is registered and in the commit.
* `cancelled_not_discovered`: What it does not find may never have been stored.
-/

namespace DataCrystal

section Encoding

/-- What an encoding of references raises, some reference raises. -/
theorem mapLeaves_error {ρ τ ε : Type} {f : ρ → Except ε τ} {P : ε → Prop} : ∀ v : Val ρ,
    (∀ r ∈ v.leaves, ∀ e, f r = .error e → P e) → ∀ e, v.mapLeaves f = .error e → P e
  | .none, _, e, h => by cases h
  | .scalar _, _, e, h => by cases h
  | .leaf r, hv, e, h => by
      refine hv r (by simp [Val.leaves]) e ?_
      simp only [Val.mapLeaves, bind, Except.bind] at h
      cases hr : f r with
      | ok t => simp [hr, pure, Except.pure] at h
      | error e' =>
          rw [hr] at h
          cases h
          rfl
  | .seq _ xs, hv, e, h => by
      refine items xs hv e ?_
      simp only [Val.mapLeaves, bind, Except.bind] at h
      cases hxs : Val.mapLeaves.mapItems f xs with
      | ok ys => simp [hxs, pure, Except.pure] at h
      | error e' =>
          rw [hxs] at h
          cases h
          rfl
  | .dict xs, hv, e, h => by
      refine entries xs hv e ?_
      simp only [Val.mapLeaves, bind, Except.bind] at h
      cases hxs : Val.mapLeaves.mapEntries f xs with
      | ok ys => simp [hxs, pure, Except.pure] at h
      | error e' =>
          rw [hxs] at h
          cases h
          rfl
where
  items : ∀ xs : List (Val ρ), (∀ r ∈ Val.leaves.itemLeaves xs, ∀ e, f r = .error e → P e) →
      ∀ e, Val.mapLeaves.mapItems f xs = .error e → P e
    | [], _, e, h => by cases h
    | x :: xs, hv, e, h => by
        simp only [Val.leaves.itemLeaves, List.mem_append] at hv
        simp only [Val.mapLeaves.mapItems, bind, Except.bind] at h
        cases hx : x.mapLeaves f with
        | error e' =>
            rw [hx] at h
            cases h
            exact mapLeaves_error x (fun r hr => hv r (Or.inl hr)) _ hx
        | ok y =>
            rw [hx] at h
            dsimp only at h
            cases hxs : Val.mapLeaves.mapItems f xs with
            | ok ys => simp [hxs, pure, Except.pure] at h
            | error e' =>
                rw [hxs] at h
                cases h
                exact items xs (fun r hr => hv r (Or.inr hr)) _ hxs
  entries : ∀ xs : List (Scalar × Val ρ),
      (∀ r ∈ Val.leaves.entryLeaves xs, ∀ e, f r = .error e → P e) →
      ∀ e, Val.mapLeaves.mapEntries f xs = .error e → P e
    | [], _, e, h => by cases h
    | (_, x) :: xs, hv, e, h => by
        simp only [Val.leaves.entryLeaves, List.mem_append] at hv
        simp only [Val.mapLeaves.mapEntries, bind, Except.bind] at h
        cases hx : x.mapLeaves f with
        | error e' =>
            rw [hx] at h
            cases h
            exact mapLeaves_error x (fun r hr => hv r (Or.inl hr)) _ hx
        | ok y =>
            rw [hx] at h
            dsimp only at h
            cases hxs : Val.mapLeaves.mapEntries f xs with
            | ok ys => simp [hxs, pure, Except.pure] at h
            | error e' =>
                rw [hxs] at h
                cases h
                exact entries xs (fun r hr => hv r (Or.inr hr)) _ hxs

/-- The codec refuses an integer it has no room for, and nothing else. -/
theorem storable_error {ρ : Type} : ∀ (v : Val ρ) (e : Err), v.storable = .error e →
    e = .unstorable
  | .none, e, h => by
      unfold Val.storable at h
      cases h
  | .scalar s, e, h => by
      unfold Val.storable at h
      -- An integer out of range is the one leaf that is refused.
      split at h
      · split at h
        · cases h
        · cases h
          rfl
      · cases h
  | .leaf r, e, h => by
      unfold Val.storable at h
      cases h
  | .seq _ xs, e, h => by
      rw [Val.storable] at h
      cases hxs : Val.storable.storableItems xs with
      | ok ys =>
          rw [hxs] at h
          cases h
      | error e' =>
          rw [hxs] at h
          cases h
          exact items xs _ hxs
  | .dict xs, e, h => by
      rw [Val.storable] at h
      cases hxs : Val.storable.storableEntries xs with
      | ok ys =>
          rw [hxs] at h
          cases h
      | error e' =>
          rw [hxs] at h
          cases h
          exact entries xs _ hxs
where
  items : ∀ (xs : List (Val ρ)) (e : Err), Val.storable.storableItems xs = .error e →
      e = .unstorable
    | [], e, h => by
        unfold Val.storable.storableItems at h
        cases h
    | x :: xs, e, h => by
        rw [Val.storable.storableItems] at h
        cases hx : x.storable with
        | error e' =>
            rw [hx] at h
            cases h
            exact storable_error x _ hx
        | ok y =>
            rw [hx] at h
            dsimp only at h
            cases hxs : Val.storable.storableItems xs with
            | ok ys =>
                rw [hxs] at h
                cases h
            | error e' =>
                rw [hxs] at h
                cases h
                exact items xs _ hxs
  entries : ∀ (xs : List (Scalar × Val ρ)) (e : Err), Val.storable.storableEntries xs = .error e →
      e = .unstorable
    | [], e, h => by
        unfold Val.storable.storableEntries at h
        cases h
    | (k, x) :: xs, e, h => by
        rw [Val.storable.storableEntries] at h
        cases hk : (Val.scalar k : Val ρ).storable with
        | error e' =>
            rw [hk] at h
            cases h
            exact storable_error (.scalar k) _ hk
        | ok y =>
            rw [hk] at h
            cases hx : x.storable with
            | error e' =>
                rw [hx] at h
                cases h
                exact storable_error x _ hx
            | ok y =>
                rw [hx] at h
                dsimp only at h
                cases hxs : Val.storable.storableEntries xs with
                | ok ys =>
                    rw [hxs] at h
                    cases h
                | error e' =>
                    rw [hxs] at h
                    cases h
                    exact entries xs _ hxs

end Encoding

namespace Store

variable {types : Types} {p : Principal} {kind : Nat → String} {s t u : Store}

/-- There is always a shape to encode an entity under. -/
theorem cidFor_returns (types : Types) (c : String) (s : Store) :
    ∃ cid u, cidFor types c s = .ok cid u := by
  unfold cidFor
  rw [bind_run_ok (get_run s)]
  cases hfind : (s.cidByTypename c).filter fun cid =>
      s.persistedFields cid = (types.info c).fieldNames with
  | some cid => exact ⟨cid, s, by simp only; rfl⟩
  | none => exact ⟨s.alloc.nextCid, s.addShape c (types.info c).fieldNames, by
      simp only [bind_run_ok (modify_run _ s)]; rfl⟩

/-- Encoding entities whose references have OIDs meets no unregistered one. -/
theorem encodePending_registered {entries : List (Nat × Nat)}
    (h : ∀ e ∈ entries, ∀ spec ∈ (s.info types e.2).specs,
      ∀ r ∈ ((s.heap.get e.2).field spec.name).leaves,
        s.oidForEncode r ≠ .error .escapedDiscovery) :
    ∀ t, encodePending types entries s ≠ .error .escapedDiscovery t := by
  -- Encoding allocates OIDs of blobs and shapes and leaves the objects alone.
  have hkeeps : ∀ {α : Type} {m : M α}, Moves (Encodes types) m →
      Keeps (fun u => u.heap = s.heap) m := by
    intro α m hm
    refine hm.mono fun a b hstep ha => ?_
    cases hstep with
    | blobOid => exact ha
    | shape c => exact ha
  -- One field: bytes can fail to be read, a value can fail to be storable, and a reference raises
  -- what the hypothesis excludes.
  have hfield : ∀ e ∈ entries, ∀ spec ∈ (s.info types e.2).specs, ∀ out,
      RaisesOnly (fun u : Store => u.heap = s.heap) (fun err => err ≠ .escapedDiscovery)
        (encodeField e.2 spec out) := by
    intro e he spec hspec out
    refine raisesOnly_get_bind fun u hu err t hrun => ?_
    by_cases hblob : spec.blob = true
    · rw [if_pos hblob] at hrun
      cases hraw : rawBytes ((u.heap.get e.2).field spec.name) with
      | some raw =>
          rw [hraw] at hrun
          dsimp only [sinkBlob] at hrun
          rw [bind_run_ok (get_run u), bind_run_ok (modify_run _ u)] at hrun
          cases hread : raw.content with
          | ok content =>
              rw [hread] at hrun
              cases hrun
          | error err' =>
              rw [hread] at hrun
              cases hrun
              rcases rawBytes_error hraw hread with rfl | rfl
              · exact Err.noConfusion
              · exact Err.noConfusion
      | none =>
          rw [hraw] at hrun
          have honly : RaisesOnly (fun u : Store => u.heap = s.heap)
              (fun err => err ≠ .escapedDiscovery)
              (ofExcept (storedBlob ((u.heap.get e.2).field spec.name)) >>= fun w =>
                pure (w, out)) := by
            refine raisesOnly_bind (raisesOnly_ofExcept fun err herr => ?_)
              (moves_ofExcept _) fun w => raisesOnly_pure _
            unfold storedBlob at herr
            split at herr
            · cases herr
            · cases herr
            · cases herr
              exact Err.noConfusion
          exact honly u hu err t hrun
    · rw [if_neg hblob] at hrun
      have honly : RaisesOnly (fun u : Store => u.heap = s.heap)
          (fun err => err ≠ .escapedDiscovery)
          (ofExcept (((u.heap.get e.2).field spec.name).encode u.oidForEncode) >>= fun w =>
            pure (w, out)) := by
        refine raisesOnly_bind (raisesOnly_ofExcept fun err herr => ?_) (moves_ofExcept _)
          fun w => raisesOnly_pure _
        rw [oidForEncode_congr hu, hu] at herr
        unfold Val.encode at herr
        cases hmap : ((s.heap.get e.2).field spec.name).mapLeaves s.oidForEncode with
        | ok w =>
            rw [hmap] at herr
            rw [storable_error w err herr]
            exact Err.noConfusion
        | error err' =>
            rw [hmap] at herr
            cases herr
            refine mapLeaves_error (P := fun err => err ≠ .escapedDiscovery) _ ?_ _ hmap
            intro r hr err' hraise hc
            exact h e he spec hspec r hr (hc ▸ hraise)
      exact honly u hu err t hrun
  -- The fields of one entity, by induction on its schema.
  have hfields : ∀ e ∈ entries, ∀ specs, (∀ spec ∈ specs, spec ∈ (s.info types e.2).specs) →
      ∀ out, RaisesOnly (fun u : Store => u.heap = s.heap) (fun err => err ≠ .escapedDiscovery)
        (encodeFields e.2 specs out) := by
    intro e he specs
    induction specs with
    | nil => exact fun _ out => raisesOnly_pure _
    | cons spec specs ih =>
        intro hmem out
        refine raisesOnly_bind (hfield e he spec (hmem spec (by simp)) out)
          (hkeeps (moves_encodeField _ _ _)) fun r => ?_
        exact raisesOnly_bind (ih (fun sp hsp => hmem sp (by simp [hsp])) r.2)
          (hkeeps (moves_encodeFields _ _ _)) fun _ => raisesOnly_pure _
  -- Then the entities, by induction on the pending ones.
  have hall : ∀ es : List (Nat × Nat), (∀ e ∈ es, e ∈ entries) → ∀ out,
      RaisesOnly (fun u : Store => u.heap = s.heap) (fun err : Err => err ≠ .escapedDiscovery)
        (es.foldlM (encodeEntity types) out) := by
    intro es
    induction es with
    | nil => exact fun _ out => raisesOnly_pure _
    | cons e es ih =>
        intro hmem out
        have hentity : Moves (Encodes types) (encodeEntity types out e) :=
          moves_bind moves_get fun s => moves_bind (moves_cidFor _) fun cid =>
            moves_bind (moves_encodeFields _ _ _) fun _ => moves_pure _
        refine raisesOnly_bind ?_ (hkeeps hentity) (ih fun e' he' => hmem e' (by simp [he']))
        refine raisesOnly_get_bind fun u hu err t hrun => ?_
        have hinfo : (types.info (u.heap.get e.2).cls).specs = (s.info types e.2).specs := by
          -- The class of an entity is read from the heap, which is the one at the start.
          rw [hu]
          rfl
        have honly : RaisesOnly (fun u : Store => u.heap = s.heap)
            (fun err => err ≠ .escapedDiscovery) (cidFor types (u.heap.get e.2).cls >>= fun cid => do
              let r ← encodeFields e.2 (types.info (u.heap.get e.2).cls).specs { out with
                newTypes := u.noteShape (cid, (u.heap.get e.2).cls,
                  (types.info (u.heap.get e.2).cls).fieldNames) out.newTypes }
              pure { r.2 with records := r.2.records ++ [(e.1, cid, r.1)] }) := by
          refine raisesOnly_bind ?_ (hkeeps (moves_cidFor _)) fun cid => ?_
          -- A shape is always found or made.
          · intro v _ err' t' hcid
            rcases cidFor_returns types (u.heap.get e.2).cls v with ⟨cid, w, hw⟩
            rw [hw] at hcid
            cases hcid
          · rw [hinfo]
            exact raisesOnly_bind (hfields e (hmem e (by simp)) _ (fun _ hsp => hsp) _)
              (hkeeps (moves_encodeFields _ _ _)) fun _ => raisesOnly_pure _
        exact honly u hu err t hrun
  intro t hrun
  exact hall entries (fun _ he => he) {} s rfl _ t hrun rfl

/-- Whether discovery goes on from one object to another. -/
def Follows (types : Types) (s : Store) (a b : Nat) : Prop :=
  s.isOpen a = true ∧ b ∈ (s.fieldTargets types a).map Prod.snd

/-- An object waits in a buffer. -/
def Buffered (s : Store) (o : Nat) : Prop := ∃ k, s.new.get? k = some o ∨ s.dirty.get? k = some o

/-- An entity that waits for its first commit, registered or not. The amended half
    of what discovery promises is about these. -/
def NeverStored (s : Store) (o : Nat) : Prop :=
  (s.heap.get o).oid = none ∨ ∃ k, s.new.get? k = some o

section Completeness

variable {hints : Hints}

theorem oid_of_walkMark {o : Nat} (h : (s.heap.get o).oid = none) : s.walkMark o = .inr o := by
  unfold walkMark
  rw [h]

theorem mem_buffers_of_buffered {o : Nat} (h : Buffered s o) :
    o ∈ s.new.values ++ s.dirty.values := by
  rcases h with ⟨k, hk | hk⟩
  · exact List.mem_append_left _ (List.mem_map.mpr ⟨(k, o), (Dict.get?_eq_some_iff _ _ _).mp hk, rfl⟩)
  · exact List.mem_append_right _ (List.mem_map.mpr ⟨(k, o), (Dict.get?_eq_some_iff _ _ _).mp hk, rfl⟩)

theorem isOpen_eq_unsettled (hc : Coherent kind s) (o : Nat) :
    s.isOpen o = s.unsettled [] o :=
  (@walking_start (fun _ => none) default _ _ hc).isOpen hc o

/-- What discovery marks in a coherent store: what the walk has come to is all there
    is to come to, every buffered entity is marked, and no entity has an OID that
    the store before did not have room for. -/
structure Discovered (types : Types) (p : Principal) (s t : Store) (marks : List (Nat ⊕ Nat))
    (walked : List Nat) : Prop where
  walking : Walking types p s t marks walked
  closed : (s.walkGraph types).Closed (s.leadsTo types []) marks
  buffered : ∀ o, Buffered s o → s.walkMark o ∈ marks
  after : ∀ o k, (t.heap.get o).oid = some k → o < s.heap.size

theorem discovered (hc : Coherent kind s) (hone : OneInstance s) {v : Unit}
    (h : discoverNewGraphs types p s = .ok v t) :
    ∃ marks walked, Discovered types p s t marks walked := by
  rcases discover_walks hc h with ⟨walked, hw⟩
  have hempty : (s.walkGraph types).Closed (s.leadsTo types []) [] :=
    fun a ha => absurd ha List.not_mem_nil
  rcases closed_marksFrom hone (s.new.values ++ s.dirty.values) hempty with ⟨hclosed, -, hmarked⟩
  have ht : Coherent kind t := @edits_coherent types p _ _ _
    (Relation.ReflTransGen.mono (fun _ _ hg => Edit.grow hg) _ _
      ((moves_discoverNewGraphs s).of_ok h)) hc
  refine ⟨_, walked, hw, hclosed, fun o ho => hmarked o (mem_buffers_of_buffered ho), ?_⟩
  intro o k hk
  rw [← hw.size]
  exact ht.objects.bounded o k hk

variable {marks : List (Nat ⊕ Nat)} {walked : List Nat}

/-- What discovery marked has an OID afterwards. -/
theorem Discovered.registered (h : Discovered types p s t marks walked) {o : Nat}
    (hm : (s.heap.get o).oid = none → s.walkMark o ∈ marks) : ∃ k, (t.heap.get o).oid = some k := by
  cases hoid : (s.heap.get o).oid with
  | some k => exact ⟨k, h.walking.old o k hoid⟩
  | none =>
      have hmark := hm hoid
      rw [oid_of_walkMark hoid] at hmark
      rcases h.walking.adopted o hoid hmark with ⟨k, -, hk, -⟩
      exact ⟨k, hk⟩

/-- The marks follow the references of open objects. -/
theorem Discovered.follows (h : Discovered types p s t marks walked) (hc : Coherent kind s)
    (hdecl : DeclaredAs hints types)
    (hconf : ∀ o < s.heap.size, s.isOpen o = true → FieldsConform hints types s o) {a b : Nat}
    (ha : s.walkMark a ∈ marks) (hab : Follows types s a b) (hb : s.isOpen b = true) :
    s.walkMark b ∈ marks := by
  rcases hab with ⟨hopen, htarget⟩
  have hsize : a < s.heap.size := by
    rcases h.registered (o := a) fun _ => ha with ⟨k, hk⟩
    exact h.after a k hk
  have hrefs : (s.info types a).hasEntityRefs = true := by
    by_contra hskip
    rw [fieldTargets_of_conforms hdecl (hconf a hsize hopen) (by simpa using hskip)] at htarget
    exact absurd htarget List.not_mem_nil
  refine h.closed a ha b ?_
  rw [isOpen_eq_unsettled hc] at hopen hb
  unfold leadsTo
  rw [if_pos (by simp [hsize, hopen, hrefs]), List.mem_filter]
  exact ⟨htarget, hb⟩

theorem isOpen_of_buffered (hc : Coherent kind s) {o : Nat} (h : Buffered s o) :
    s.isOpen o = true := by
  unfold isOpen isBuffered Dict.contains
  rcases h with ⟨k, hk | hk⟩
  · simp [(hc.objects.isNew k o hk).1, hk]
  · simp [(hc.objects.isDirty k o hk).1, hk]

/-- So they reach whatever is reached through open objects. -/
theorem Discovered.reaches (h : Discovered types p s t marks walked) (hc : Coherent kind s)
    (hdecl : DeclaredAs hints types)
    (hconf : ∀ o < s.heap.size, s.isOpen o = true → FieldsConform hints types s o) {a o : Nat}
    (ha : Buffered s a) (hreach : Relation.ReflTransGen (Follows types s) a o)
    (hopen : s.isOpen o = true) : s.walkMark o ∈ marks := by
  have hall : s.isOpen o = true → s.walkMark o ∈ marks := by
    clear hopen
    induction hreach with
    | refl => exact fun _ => h.buffered a ha
    | tail _ hstep ih => exact h.follows hc hdecl hconf (ih hstep.1) hstep
  exact hall hopen

/-- An entity of the commit was buffered before, or registered by discovery. -/
theorem Discovered.of_pending (h : Discovered types p s t marks walked) (hc : Coherent kind s)
    (ht : Coherent kind t) {k o : Nat} (hp : (k, o) ∈ t.pending.entries) :
    s.walkMark o ∈ marks ∧ s.isOpen o = true := by
  have hcases : Buffered s o ∨ (s.heap.get o).oid = none := by
    -- A new entry with an OID of before the walk was buffered then; a later one was adopted on it.
    rcases (ht.mem_pending k o).mp hp with hnew | ⟨hdirty, -⟩
    · by_cases hlt : k < s.alloc.nextOid
      · rw [h.walking.newOld k hlt] at hnew
        exact Or.inl ⟨k, Or.inl hnew⟩
      · refine Or.inr ?_
        cases hoid : (s.heap.get o).oid with
        | none => rfl
        | some j =>
            -- Its OID was handed out before the walk, so it is not a new one.
            have hobj := ht.objects.isNew k o hnew
            have hj : j = k := by
              have hold := h.walking.old o j hoid
              rw [hobj.1] at hold
              exact (Option.some.inj hold).symm
            rw [(h.walking.same o).2.2.1] at hobj
            have hbelow := (hc.objects.newOf o j hobj.2.1 hoid).2
            omega
    · rw [h.walking.dirty] at hdirty
      exact Or.inl ⟨k, Or.inr hdirty⟩
  -- What was buffered is walked from, and what was adopted has its mark set.
  rcases hcases with hbuf | hnone
  · exact ⟨h.buffered o hbuf, isOpen_of_buffered hc hbuf⟩
  · refine ⟨?_, by unfold isOpen; rw [hnone]⟩
    by_contra hm
    rw [oid_of_walkMark hnone] at hm
    have hafter := h.walking.notYet o hnone hm
    rw [(ht.pending_object hp).1] at hafter
    cases hafter

end Completeness

end Store

open Store

/-- After discovery everything that is reached from a buffered entity through
    unregistered and buffered ones has an OID, what waits for its first commit among
    it is in this one, and encoding meets no unregistered entity. A class that the
    walk skips holds no reference. -/
theorem discovery_complete {kind : Nat → String} {s t : Store} {types : Types} {hints : Hints}
    {p : Principal} {v : Unit} (hc : Coherent kind s) (hone : OneInstance s)
    (hdecl : DeclaredAs hints types)
    (hconf : ∀ o < s.heap.size, s.isOpen o = true → FieldsConform hints types s o)
    (h : discoverNewGraphs types p s = .ok v t) :
    (∀ a o, Buffered s a → Relation.ReflTransGen (Follows types s) a o →
      (∃ k, (t.heap.get o).oid = some k) ∧
      (NeverStored s o → ∃ k, (t.heap.get o).oid = some k ∧ (k, o) ∈ t.pending.entries)) ∧
    (∀ m u, encodePending types t.pending.entries { t with index := m } ≠
      .error .escapedDiscovery u) ∧
    ∀ o < s.heap.size, s.isOpen o = true → (s.info types o).hasEntityRefs = false →
      ∀ spec ∈ (s.info types o).specs, ((s.heap.get o).field spec.name).targets = [] := by
  rcases discovered hc hone h with ⟨marks, walked, hd⟩
  have ht : Coherent kind t := @edits_coherent types p _ _ _
    (Relation.ReflTransGen.mono (fun _ _ hg => Edit.grow hg) _ _
      ((moves_discoverNewGraphs s).of_ok h)) hc
  have hopenNone : ∀ o, (s.heap.get o).oid = none → s.isOpen o = true := by
    intro o hoid
    unfold isOpen
    rw [hoid]
  refine ⟨fun a o ha hreach => ?_, fun m u hraise => ?_, fun o hsize hopen hskip spec hspec => ?_⟩
  -- Everything reached from a buffered entity is marked, if it has no OID yet.
  · have hmark : (s.heap.get o).oid = none → s.walkMark o ∈ marks := fun hoid =>
      hd.reaches hc hdecl hconf ha hreach (hopenNone o hoid)
    -- An entity that was never stored is new behind the walk: adopted on it, or buffered before.
    refine ⟨hd.registered hmark, fun hnever => ?_⟩
    cases hoid : (s.heap.get o).oid with
    | none =>
        have hm := hmark hoid
        rw [oid_of_walkMark hoid] at hm
        rcases hd.walking.adopted o hoid hm with ⟨k, -, hk, hnew⟩
        exact ⟨k, hk, (ht.mem_pending k o).mpr (Or.inl hnew)⟩
    | some j =>
        rcases hnever with hnone | ⟨k, hk⟩
        · rw [hoid] at hnone
          cases hnone
        · have hnew : t.new.get? k = some o :=
            (hd.walking.newOld k (hc.below_of_new hk)).trans hk
          exact ⟨k, (ht.objects.isNew k o hnew).1, (ht.mem_pending k o).mpr (Or.inl hnew)⟩
  -- An entity that is encoded is open and marked, so the walk went on from it.
  · refine encodePending_registered (s := { t with index := m }) ?_ u hraise
    rintro ⟨k, o⟩ hp spec hspec r hr
    rcases hd.of_pending hc ht hp with ⟨hmark, hopen⟩
    -- A reference to a live entity is followed, so the entity has an OID.
    have htarget : ∀ b, r.target? = some b → ∃ j, (t.heap.get b).oid = some j := by
      intro b hb
      refine hd.registered fun hoid => ?_
      refine hd.follows hc hdecl hconf hmark ⟨hopen, ?_⟩ (hopenNone b hoid)
      rw [← hd.walking.fieldTargets]
      refine List.mem_map.mpr ⟨(!spec.lazyRefs, b), ?_, rfl⟩
      refine List.mem_flatMap.mpr ⟨spec, hspec, List.mem_map.mpr ⟨b, ?_, rfl⟩⟩
      exact List.mem_filterMap.mpr ⟨r, hr, hb⟩
    change t.oidForEncode r ≠ _
    unfold oidForEncode
    cases r with
    | entity b =>
        rcases htarget b rfl with ⟨j, hj⟩
        simp [hj]
    | «lazy» oid target =>
        cases target with
        | none => cases oid <;> simp
        | some b =>
            rcases htarget b rfl with ⟨j, hj⟩
            simp [hj]
    | blob oid content => simp
    | source size next => simp
  -- A field of a class without entity references conforms to a hint that holds none.
  · have hnil := fieldTargets_of_conforms hdecl (hconf o hsize hopen) hskip
    unfold fieldTargets at hnil
    rw [List.flatMap_eq_nil_iff] at hnil
    exact List.map_eq_nil_iff.mp (hnil spec hspec)

/-- What lies in a folder is of any type, and titles are strings. -/
def folderHints : Hints := fun _ f =>
  if f = "inside" ∨ f = "value" ∨ f = "text" then .other "object" else .leaf .str

theorem folderTypes_declared : DeclaredAs folderHints folderTypes := by
  intro c spec hspec
  have hcases : spec ∈ rootInfo.specs ∨ spec ∈ actorInfo.specs ∨
      spec ∈ ((folderTypes "folder").getD default).specs ∨
      spec ∈ ((folderTypes "note").getD default).specs := by
    unfold Types.info at hspec
    by_cases hroot : c = rootCls
    · rw [if_pos hroot] at hspec
      exact Or.inl hspec
    · by_cases hactor : c = actorCls
      · rw [if_neg hroot, if_pos hactor] at hspec
        -- The four classes there are.
        exact Or.inr (Or.inl hspec)
      · rw [if_neg hroot, if_neg hactor] at hspec
        by_cases hfolder : c = "folder"
        · rw [hfolder] at hspec
          exact Or.inr (Or.inr (Or.inl hspec))
        · by_cases hnote : c = "note"
          · rw [hnote] at hspec
            exact Or.inr (Or.inr (Or.inr hspec))
          · unfold folderTypes noteTypes at hspec
            rw [if_neg hfolder, if_neg hnote] at hspec
            exact absurd hspec List.not_mem_nil
  -- And their fields, which are finitely many.
  have hall : ∀ spec : FieldSpec, spec ∈ rootInfo.specs ∨ spec ∈ actorInfo.specs ∨
      spec ∈ ((folderTypes "folder").getD default).specs ∨
      spec ∈ ((folderTypes "note").getD default).specs →
      spec.entityRef = (folderHints "" spec.name).mayHoldEntity := by
    rintro spec (h | h | h | h) <;> revert h <;> revert spec <;> decide
  exact hall spec hcases

/-- A folder is put into one that is in the buffer. -/
def folderInFolder : List Event :=
  [.act noteOwner (.construct "folder" [("title", .scalar (.str "a"))]),
    .act noteOwner (.construct "folder" [("title", .scalar (.str "b"))]),
    .act noteOwner (.store 1), .act noteOwner (.setField 1 "inside" (.leaf (.entity 0)))]

/-- Discovery registers it. -/
theorem discovery_complete_on_folders :
    let s := ((World.start folderTypes).run folderInFolder).store
    ∃ t k, discoverNewGraphs folderTypes noteOwner s = .ok () t ∧
      (t.heap.get 0).oid = some k ∧ (k, 0) ∈ t.pending.entries := by
  intro s
  rcases World.run_coherent folderTypes folderInFolder with ⟨kind, hw⟩
  have hsize : s.heap.size = 2 := by decide +kernel
  -- Two objects, so one instance for each OID is decided.
  have hone : OneInstance s := by
    have hall : ∀ o < 2, ∀ n < 2, (s.heap.get o).oid = (s.heap.get n).oid →
        (s.heap.get o).oid.isSome = true → o = n := by decide +kernel
    intro o n k ho hn _
    have hbo := hw.store.objects.bounded o k ho
    have hbn := hw.store.objects.bounded n k hn
    exact hall o (hsize ▸ hbo) n (hsize ▸ hbn) (ho.trans hn.symm) (by rw [ho]; rfl)
  -- What is not a title is never set.
  have hconf : ∀ o < s.heap.size, s.isOpen o = true → FieldsConform folderHints folderTypes s o := by
    have hfields : ∀ o < 2, (s.heap.get o).cls = "folder" ∧
        (s.heap.get o).field "title" = .scalar (.str (if o = 0 then "a" else "b")) := by
      decide +kernel
    intro o ho _ spec hspec
    rcases hfields o (hsize ▸ ho) with ⟨hcls, htitle⟩
    unfold Store.info at hspec
    rw [hcls] at hspec ⊢
    have hnames : ∀ spec ∈ (folderTypes.info "folder").specs,
        spec.name = "title" ∨ spec.name = "inside" := by decide
    rcases hnames spec hspec with hname | hname
    · rw [hname, htitle]
      trivial
    · rw [hname]
      trivial
  cases hdisc : discoverNewGraphs folderTypes noteOwner s with
  | error e t =>
      have hok : (match discoverNewGraphs folderTypes noteOwner s with
        | .ok _ _ => true
        | .error _ _ => false) = true := by decide +kernel
      rw [hdisc] at hok
      cases hok
  | ok v t =>
      have hfollow : s.new.get? oidBase = some 1 ∧ s.isOpen 1 = true ∧
          0 ∈ (s.fieldTargets folderTypes 1).map Prod.snd ∧ (s.heap.get 0).oid = none := by
        decide +kernel
      rcases discovery_complete hw.store hone folderTypes_declared hconf hdisc with ⟨hall, -⟩
      rcases hall 1 0 ⟨oidBase, Or.inl hfollow.1⟩ (.single ⟨hfollow.2.1, hfollow.2.2.1⟩) with ⟨-, hnever⟩
      rcases hnever (Or.inl hfollow.2.2.2) with ⟨k, hk, hp⟩
      exact ⟨t, k, rfl, hk, hp⟩

/-- A folder is stored with another one inside, and the insert of that one is taken
    back. -/
def cancelledInFolder : List Event :=
  [.act noteOwner (.construct "folder" [("title", .scalar (.str "a"))]),
    .act noteOwner (.construct "folder"
      [("title", .scalar (.str "b")), ("inside", .leaf (.entity 0))]),
    .act noteOwner (.store 1), .act noteOwner (.delete 0)]

/-- The folder inside is reached from the one in the buffer and was never stored, and
    it is not in the commit. -/
theorem cancelled_not_discovered :
    let s := ((World.start folderTypes).run cancelledInFolder).store
    ∃ t, discoverNewGraphs folderTypes noteOwner s = .ok () t ∧ Buffered s 1 ∧
      Follows folderTypes s 1 0 ∧ (t.heap.get 0).oid = some (oidBase + 1) ∧
        t.backend.objects.get? (oidBase + 1) = none ∧ ∀ k, (k, 0) ∉ t.pending.entries := by
  intro s
  have hbefore : s.new.get? oidBase = some 1 ∧ s.isOpen 1 = true ∧
      0 ∈ (s.fieldTargets folderTypes 1).map Prod.snd := by decide +kernel
  have hrun : (match discoverNewGraphs folderTypes noteOwner s with
      | .ok _ t => some ((t.heap.get 0).oid, (t.backend.objects.get? (oidBase + 1)).isNone,
          t.pending.entries.map Prod.snd)
      | .error _ _ => none) = some (some (oidBase + 1), true, [1]) := by decide +kernel
  cases hdisc : discoverNewGraphs folderTypes noteOwner s with
  | error e t =>
      rw [hdisc] at hrun
      cases hrun
  | ok _ t =>
      rw [hdisc] at hrun
      simp only [Option.some.injEq, Prod.mk.injEq, Option.isNone_iff_eq_none] at hrun
      rcases hrun with ⟨hoid, hnone, hpending⟩
      refine ⟨t, rfl, ⟨oidBase, Or.inl hbefore.1⟩, hbefore.2, hoid, hnone, fun k hk => ?_⟩
      have hmem := List.mem_map_of_mem (f := Prod.snd) hk
      rw [hpending] at hmem
      simp at hmem

end DataCrystal
