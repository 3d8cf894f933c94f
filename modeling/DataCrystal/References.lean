import DataCrystal.Index.Reverse
import DataCrystal.Lockstep
import DataCrystal.Rows

/-!
# The References of a Commit

A commit folds the references of live objects into the reverse index and stores
payloads. The two harvests, of the objects before they are encoded and of the
payloads a scan decodes, find the same OIDs: encoding keeps the shape of a value
and turns each reference into the token of its OID. One thing has to be so for
that. A lazy handle that has both an OID and a loaded object is harvested by its
OID and encoded by its object, so the two must belong together.

The invariant behind the reverse index then survives a commit. It also survives
one that is folded before the index is built, unless the cached postings stay:
they are dropped with the first indexed value or the first deletion, and a commit
that has neither leaves them as they are.

## Main definitions

* `HandlesAgree`: Handles whose OID and object belong together.
* `KeepsCache`: A commit that drops the cached postings it makes stale.

## Theorems

* `harvest_encoded`: The two harvests agree.
* `stored_inverts`: The postings behind the folds are those of storage.
* `finalize_reverse`: A commit that completes keeps the reverse index.
* `commit_folds`: What the index names behind a commit.
-/

namespace DataCrystal

open Postings IndexManager

namespace Val

variable {ρ τ : Type}

/-- What is storable is stored with the references it has. -/
theorem leaves_storable : ∀ {v w : Val ρ}, v.storable = .ok w → w.leaves = v.leaves
  | .none, w, h => by
      unfold storable at h
      cases h
      rfl
  | .scalar s, w, h => by
      unfold storable at h
      split at h
      · split at h
        · cases h
          rfl
        · cases h
      · cases h
        rfl
  | .leaf r, w, h => by
      unfold storable at h
      cases h
      rfl
  | .seq k xs, w, h => by
      cases hxs : storable.storableItems xs with
      | error e =>
          rw [storable, hxs] at h
          cases h
      | ok ys =>
          rw [storable, hxs] at h
          cases h
          exact items hxs
  | .dict xs, w, h => by
      cases hxs : storable.storableEntries xs with
      | error e =>
          rw [storable, hxs] at h
          cases h
      | ok ys =>
          rw [storable, hxs] at h
          cases h
          exact entries hxs
where
  items : ∀ {xs ys : List (Val ρ)}, storable.storableItems xs = .ok ys →
      leaves.itemLeaves ys = leaves.itemLeaves xs
    | [], ys, h => by
        rw [storable.storableItems] at h
        cases h
        rfl
    | x :: xs, ys, h => by
        unfold storable.storableItems at h
        cases hx : x.storable with
        | error e =>
            rw [hx] at h
            cases h
        | ok y =>
            rw [hx] at h
            cases hxs : storable.storableItems xs with
            | error e =>
                rw [hxs] at h
                cases h
            | ok zs =>
                rw [hxs] at h
                cases h
                rw [leaves.itemLeaves, leaves.itemLeaves, leaves_storable hx, items hxs]
  entries : ∀ {xs ys : List (Scalar × Val ρ)}, storable.storableEntries xs = .ok ys →
      leaves.entryLeaves ys = leaves.entryLeaves xs
    | [], ys, h => by
        rw [storable.storableEntries] at h
        cases h
        rfl
    | (k, x) :: xs, ys, h => by
        unfold storable.storableEntries at h
        cases hx : x.storable with
        | error e =>
            rw [hx] at h
            cases hk : (Val.scalar k : Val ρ).storable <;> rw [hk] at h <;> cases h
        | ok y =>
            rw [hx] at h
            cases hk : (Val.scalar k : Val ρ).storable with
            | error e =>
                rw [hk] at h
                cases h
            | ok k' =>
                rw [hk] at h
                cases hxs : storable.storableEntries xs with
                | error e =>
                    rw [hxs] at h
                    cases h
                | ok zs =>
                    rw [hxs] at h
                    cases h
                    rw [leaves.entryLeaves, leaves.entryLeaves, leaves_storable hx, entries hxs]

/-- The references of a value, rewritten one by one. -/
theorem leaves_mapLeaves {f : ρ → Except Err τ} : ∀ {v : Val ρ} {w : Val τ},
    v.mapLeaves f = .ok w → List.Forall₂ (fun r t => f r = .ok t) v.leaves w.leaves
  | .none, w, h => by
      cases h
      exact .nil
  | .scalar s, w, h => by
      cases h
      exact .nil
  | .leaf r, w, h => by
      rcases except_bind_ok_iff.mp h with ⟨t, ht, h⟩
      cases h
      exact .cons ht .nil
  | .seq k xs, w, h => by
      rcases except_bind_ok_iff.mp h with ⟨ys, hys, h⟩
      cases h
      exact items hys
  | .dict xs, w, h => by
      rcases except_bind_ok_iff.mp h with ⟨ys, hys, h⟩
      cases h
      exact entries hys
where
  items : ∀ {xs : List (Val ρ)} {ys : List (Val τ)}, mapLeaves.mapItems f xs = .ok ys →
      List.Forall₂ (fun r t => f r = .ok t) (leaves.itemLeaves xs) (leaves.itemLeaves ys)
    | [], ys, h => by
        cases h
        exact .nil
    | x :: xs, ys, h => by
        rcases except_bind_ok_iff.mp h with ⟨y, hy, h⟩
        rcases except_bind_ok_iff.mp h with ⟨zs, hzs, h⟩
        cases h
        exact List.rel_append (leaves_mapLeaves hy) (items hzs)
  entries : ∀ {xs : List (Scalar × Val ρ)} {ys : List (Scalar × Val τ)},
      mapLeaves.mapEntries f xs = .ok ys →
      List.Forall₂ (fun r t => f r = .ok t) (leaves.entryLeaves xs) (leaves.entryLeaves ys)
    | [], ys, h => by
        cases h
        exact .nil
    | (k, x) :: xs, ys, h => by
        rcases except_bind_ok_iff.mp h with ⟨y, hy, h⟩
        rcases except_bind_ok_iff.mp h with ⟨zs, hzs, h⟩
        cases h
        exact List.rel_append (leaves_mapLeaves hy) (entries hzs)

/-- An encoded value has the references of the live one, as tokens. -/
theorem leaves_encode {f : ρ → Except Err τ} {v : Val ρ} {w : Val τ} (h : v.encode f = .ok w) :
    List.Forall₂ (fun r t => f r = .ok t) v.leaves w.leaves := by
  unfold encode at h
  cases hmap : v.mapLeaves f with
  | error e =>
      rw [hmap] at h
      cases h
  | ok u =>
      rw [hmap] at h
      rw [leaves_storable h]
      exact leaves_mapLeaves hmap

end Val

/-- What is found in one list is found in the other, item by item. -/
theorem exists_iff_of_forall₂ {α β : Type} {R : α → β → Prop} {P : α → Prop} {Q : β → Prop}
    {xs : List α} {ys : List β} (h : List.Forall₂ R xs ys)
    (hiff : ∀ x ∈ xs, ∀ y, R x y → (P x ↔ Q y)) : (∃ x ∈ xs, P x) ↔ ∃ y ∈ ys, Q y := by
  induction h with
  | nil => simp
  | @cons x y xs ys hxy _ ih =>
      rw [List.exists_mem_cons_iff, List.exists_mem_cons_iff, hiff x List.mem_cons_self y hxy,
        ih fun x hx => hiff x (List.mem_cons_of_mem _ hx)]

theorem mem_harvestRefOids {payload : List (Val Token)} {k : Nat} :
    k ∈ harvestRefOids payload ↔ ∃ w ∈ payload, Token.ref k ∈ w.leaves := by
  unfold harvestRefOids
  rw [List.mem_toFinset, List.mem_filterMap]
  constructor
  · rintro ⟨t, ht, hk⟩
    rcases List.mem_flatMap.mp ht with ⟨w, hw, hleaf⟩
    cases t with
    | ref oid =>
        rw [Option.some.inj hk] at hleaf
        exact ⟨w, hw, hleaf⟩
    | blob oid content => cases hk
  · rintro ⟨w, hw, hleaf⟩
    exact ⟨.ref k, List.mem_flatMap.mpr ⟨w, hw, hleaf⟩, rfl⟩

namespace Store

variable {types : Types} {p : Principal} {kind : Nat → String} {s t : Store} {o : Nat}

/-- The OID and the object of a handle that has both belong together. -/
def HandleAgrees (s : Store) : LiveRef → Prop
  | .lazy (some oid) (some target) => (s.heap.get target).oid = some oid
  | _ => True

instance (s : Store) : DecidablePred s.HandleAgrees
  | .lazy (some oid) (some target) =>
    inferInstanceAs (Decidable ((s.heap.get target).oid = some oid))
  | .lazy none _ => isTrue trivial
  | .lazy (some _) none => isTrue trivial
  | .entity _ => isTrue trivial
  | .blob _ _ => isTrue trivial
  | .source _ _ => isTrue trivial

/-- The handles of the buffered entities do. A handle that names one OID and has the
    object of another would be encoded by the one and harvested by the other. -/
def HandlesAgree (types : Types) (s : Store) : Prop :=
  ∀ e ∈ s.pending.entries, ∀ spec ∈ (s.info types e.2).specs,
    ∀ r ∈ ((s.heap.get e.2).field spec.name).leaves, s.HandleAgrees r

instance : Decidable (HandlesAgree types s) :=
  inferInstanceAs (Decidable (∀ e ∈ s.pending.entries, _))

theorem mem_harvestLiveRefs {k : Nat} : k ∈ s.harvestLiveRefs types o ↔
    ∃ spec ∈ (s.info types o).specs, ∃ r ∈ ((s.heap.get o).field spec.name).leaves,
      s.liveRefOid r = some k := by
  unfold harvestLiveRefs TypeInfo.fieldNames
  rw [List.mem_toFinset, List.mem_filterMap]
  constructor
  · rintro ⟨r, hr, hk⟩
    rcases List.mem_flatMap.mp hr with ⟨f, hf, hleaf⟩
    rcases List.mem_map.mp hf with ⟨spec, hspec, rfl⟩
    exact ⟨spec, hspec, r, hleaf, hk⟩
  · rintro ⟨spec, hspec, r, hleaf, hk⟩
    exact ⟨r, List.mem_flatMap.mpr ⟨spec.name, List.mem_map_of_mem hspec, hleaf⟩, hk⟩

/-- A reference is harvested as the OID it is encoded as. -/
theorem liveRefOid_encode {r : LiveRef} {tok : Token} (hagree : s.HandleAgrees r)
    (h : s.oidForEncode r = .ok tok) : ∃ k, tok = .ref k ∧ s.liveRefOid r = some k := by
  cases r with
  | entity o =>
      unfold oidForEncode at h
      dsimp only at h
      split at h
      · rename_i oid hoid
        cases h
        exact ⟨oid, rfl, hoid⟩
      · cases h
  | «lazy» oid target =>
      cases target with
      | none =>
          cases oid with
          | none => cases h
          | some n =>
              cases h
              exact ⟨n, rfl, rfl⟩
      | some o =>
          unfold oidForEncode at h
          dsimp only at h
          split at h
          · rename_i n hn
            cases h
            refine ⟨n, rfl, ?_⟩
            cases oid with
            | none => exact hn
            | some k =>
                have hk : (s.heap.get o).oid = some k := hagree
                rw [hn] at hk
                rw [Option.some.inj hk]
                rfl
          · cases h
  | blob oid content => cases h
  | source size next => cases h

/-- What fits in a blob field refers to nothing. -/
theorem encodeField_plain {spec : FieldSpec} {out out' : EncodedBatch} {w : Val Token}
    (hblob : spec.blob = true) (h : encodeField o spec out s = .ok (w, out') t) :
    ∀ r ∈ ((s.heap.get o).field spec.name).leaves, s.liveRefOid r = none := by
  unfold encodeField at h
  rw [bind_run_ok (get_run s)] at h
  simp only [hblob, if_true] at h
  cases hv : (s.heap.get o).field spec.name with
  | none => exact fun r hr => absurd hr List.not_mem_nil
  | scalar a => exact fun r hr => absurd hr List.not_mem_nil
  | leaf r' =>
      intro r hr
      rw [Val.leaves, List.mem_singleton] at hr
      rw [hr]
      rw [hv] at h
      cases r' with
      | blob oid content => rfl
      | source size next => rfl
      | entity n => cases h
      | «lazy» oid target => cases h
  | seq k xs =>
      rw [hv] at h
      cases h
  | dict xs =>
      rw [hv] at h
      cases h

/-- The blob fields of an entity refer to nothing. -/
def BlobsPlain (types : Types) (s : Store) (o : Nat) : Prop :=
  ∀ spec ∈ (s.info types o).specs, spec.blob = true →
    ∀ r ∈ ((s.heap.get o).field spec.name).leaves, s.liveRefOid r = none

theorem encodeFields_plain {specs : List FieldSpec} : ∀ {s t : Store} {out out' : EncodedBatch}
    {ws : List (Val Token)}, encodeFields o specs out s = .ok (ws, out') t →
      ∀ spec ∈ specs, spec.blob = true →
        ∀ r ∈ ((s.heap.get o).field spec.name).leaves, s.liveRefOid r = none := by
  induction specs with
  | nil => exact fun _ spec hspec => absurd hspec List.not_mem_nil
  | cons spec' specs ih =>
      intro s t out out' ws h spec hspec hblob
      rcases bind_ok_iff.mp h with ⟨⟨w, out₁⟩, s₁, hfield, h⟩
      rcases bind_ok_iff.mp h with ⟨⟨vs, out₂⟩, s₂, hfields, h⟩
      rcases List.mem_cons.mp hspec with rfl | hlater
      · exact encodeField_plain hblob hfield
      · -- a field hands out ids only
        have hsteps : Relation.ReflTransGen (Encodes fun _ => none) s s₁ :=
          (moves_encodeField o spec' out s).of_ok hfield
        rcases encodes_encodesTo hsteps with ⟨a, rows, rfl, _⟩
        exact ih hfields spec hlater hblob

/-- An entity that was encoded has nothing but bytes in its blob fields. -/
theorem encodePending_plain {entries : List (Nat × Nat)} : ∀ {s t : Store}
    {out₀ out : EncodedBatch}, entries.foldlM (encodeEntity types) out₀ s = .ok out t →
      ∀ e ∈ entries, BlobsPlain types s e.2 := by
  induction entries with
  | nil => exact fun _ e he => absurd he List.not_mem_nil
  | cons e' entries ih =>
      intro s t out₀ out h e he
      rcases bind_ok_iff.mp h with ⟨out₁, u, hone, hrest⟩
      have hone' := hone
      unfold encodeEntity at hone'
      rw [bind_run_ok (get_run s)] at hone'
      rcases bind_ok_iff.mp hone' with ⟨cid, s₁, hcid, hone'⟩
      rcases bind_ok_iff.mp hone' with ⟨⟨payload, out₂⟩, s₂, hfields, hone'⟩
      rcases encodes_encodesTo ((moves_cidFor _ s).of_ok hcid) with ⟨a, rows, rfl, _⟩
      rcases List.mem_cons.mp he with rfl | hlater
      · have hplain := encodeFields_plain hfields
        exact hplain
      · have hsteps : Relation.ReflTransGen (Encodes types) _ s₂ :=
          (moves_encodeFields e'.2 _ _ _).of_ok hfields
        rcases encodes_encodesTo hsteps with ⟨a', rows', rfl, _⟩
        cases hone'
        exact ih hrest e hlater

/-- The references of an entity are those of its payload. -/
theorem harvest_encoded {payload : List (Val Token)}
    (henc : s.EncodedAs o (s.info types o).specs payload) (hplain : BlobsPlain types s o)
    (hagree : ∀ spec ∈ (s.info types o).specs, ∀ r ∈ ((s.heap.get o).field spec.name).leaves,
      s.HandleAgrees r) : harvestRefOids payload = s.harvestLiveRefs types o := by
  ext k
  rw [mem_harvestRefOids, mem_harvestLiveRefs]
  refine (exists_iff_of_forall₂ henc fun spec hspec w hw => ?_).symm
  unfold FieldEncodedAs at hw
  by_cases hblob : spec.blob = true
  · rw [if_pos hblob] at hw
    constructor
    · rintro ⟨r, hr, hk⟩
      rw [hplain spec hspec hblob r hr] at hk
      cases hk
    · intro hk
      rcases hw with rfl | ⟨oid, content, rfl⟩
      · exact absurd hk List.not_mem_nil
      · rw [Val.leaves, List.mem_singleton] at hk
        cases hk
  · rw [if_neg hblob] at hw
    have hleaves := exists_iff_of_forall₂ (P := fun r => s.liveRefOid r = some k)
      (Q := fun t => t = Token.ref k) (Val.leaves_encode hw) fun r hr tok htok => by
        rcases liveRefOid_encode (hagree spec hspec r hr) htok with ⟨n, rfl, hn⟩
        rw [hn]
        simp
    rw [hleaves]
    simp

section Folds

variable {out : EncodedBatch} {s₁ u : Store} {m : IndexManager} {rev : RefEdges}

theorem mem_foldedEdges {entries : List RefEntry} {deleted : List Nat} {k n : Nat} :
    (k, n) ∈ foldedEdges rev entries deleted ↔
      (k, n) ∈ entries.foldl (fun edges e => redirect e.1 e.2 edges) rev ∧ n ∉ deleted :=
  mem_foldl_withdraw deleted _

/-- The references of the pending entities. -/
def pendingRefs (types : Types) (s : Store) : List RefEntry :=
  s.pending.entries.map fun e => (e.1, s.harvestLiveRefs types e.2)

theorem pendingRefs_keys (s : Store) : (s.pendingRefs types).map Prod.fst = s.pending.keys := by
  unfold pendingRefs Dict.keys
  rw [List.map_map]
  rfl

/-- The folds of a commit take the postings from storage before it to storage
    behind it. -/
theorem stored_inverts (h : Coherent kind t) (hb : BatchOk types t t.pending.entries t out)
    (hplain : ∀ e ∈ t.pending.entries, BlobsPlain types t e.2) (hagree : HandlesAgree types t)
    (hrev : Inverts t.backend rev) : Inverts (t.backend.apply (t.buildBatch out))
      (foldedEdges rev (t.pendingRefs types) t.deleted.keys) := by
  intro k n
  rw [mem_foldedEdges]
  by_cases hdel : n ∈ t.deleted.keys
  · -- a deleted record refers to nothing
    have hgone : (t.backend.apply (t.buildBatch out)).objects.get? n = none :=
      Backend.get?_apply_of_deleted hdel
    constructor
    · exact fun hk => absurd hdel hk.2
    · rintro ⟨rec, hget, -⟩
      rw [hgone] at hget
      cases hget
  · rw [and_iff_left hdel]
    by_cases hno : n ∈ t.pending.keys
    · -- a written record refers to what its entity refers to
      rcases (Dict.mem_keys_iff _ _).mp hno with ⟨o, ho⟩
      have hko : (n, o) ∈ t.pending.entries := (Dict.get?_eq_some_iff _ _ _).mp ho
      have hentry : (n, t.harvestLiveRefs types o) ∈ t.pendingRefs types :=
        List.mem_map.mpr ⟨(n, o), hko, rfl⟩
      rw [mem_foldl_redirect _ (by rw [pendingRefs_keys]; exact t.pending.nodup_keys) hentry]
      rcases stored_pending_record h hb hko with ⟨rec, hget, -, henc, -⟩
      rw [← harvest_encoded henc (hplain _ hko) (hagree _ hko)]
      constructor
      · exact fun hk => ⟨rec, hget, hk⟩
      · rintro ⟨rec', hget', hk⟩
        rw [hget] at hget'
        rw [Option.some.inj hget']
        exact hk
    · rw [mem_foldl_redirect_other _ (by rw [pendingRefs_keys]; exact hno), hrev k n]
      unfold Backend.Refers
      rw [stored_other_record hb hdel hno]

/-- The rest of the third phase, on an index that is built. -/
theorem foldRest_some (cap : Capture) (h : m.Remembered) (hrev : m.reverse = some rev) :
    (foldRest cap m).reverse = some (foldedEdges rev cap.refEntries (cap.deletes.map Prod.fst)) := by
  have happlied := applyReverse_remembered h cap.refEntries
  have hsame := applyDeletes_sameReverse (cap.deletes.map fun d => (d.1, d.2.1))
    (m.applyReverse cap.refEntries)
  have hedges := hsame.reverse.trans (congrArg IndexManager.reverse (applyReverse_some h hrev))
  unfold foldRest
  rw [removeReverse_some (hsame.remembered happlied) hedges]
  rfl

/-- The rest of the third phase, on one that is not: the cached postings go with
    the first deletion. -/
theorem foldRest_none (cap : Capture) (hrev : m.reverse = none) :
    (foldRest cap m).reverse = none ∧ ((foldRest cap m).reverseBlob = none ∨
      cap.deletes = [] ∧ (foldRest cap m).reverseBlob = m.reverseBlob) := by
  have hsame := applyDeletes_sameReverse (cap.deletes.map fun d => (d.1, d.2.1)) m
  have hnone := hsame.reverse.trans hrev
  unfold foldRest
  rw [applyReverse_none hrev, removeReverse_none hnone]
  unfold invalidateReverseBlob
  rw [hnone, Option.isNone_none, Bool.and_true]
  by_cases hdel : cap.deletes = []
  · have hempty : (!(cap.deletes.map Prod.fst).isEmpty) = false := by rw [hdel]; rfl
    rw [hempty, if_neg (by decide)]
    exact ⟨hnone, Or.inr ⟨hdel, hsame.blob⟩⟩
  · have hfull : (!(cap.deletes.map Prod.fst).isEmpty) = true := by
      rw [Bool.not_eq_true', List.isEmpty_eq_false_iff]
      exact fun hnil => hdel (List.map_eq_nil_iff.mp hnil)
    rw [if_pos hfull]
    exact ⟨rfl, Or.inl rfl⟩

theorem foldRest_remembered (cap : Capture) (h : m.Remembered) : (foldRest cap m).Remembered := by
  have happlied := applyReverse_remembered h cap.refEntries
  have hsame := applyDeletes_sameReverse (cap.deletes.map fun d => (d.1, d.2.1))
    (m.applyReverse cap.refEntries)
  exact removeReverse_remembered (hsame.remembered happlied) _

/-- The checks of a commit make class indexes only. -/
theorem Captured.sameReverse (hc : Captured types p s s₁ m out t) : SameReverse s₁.index t.index := by
  have hm : SameReverse s₁.index m := by
    refine reflTransGen_invariant (I := SameReverse s₁.index) (fun m₁ m₂ hstep h => ?_) hc.ensured
      (sameReverse_refl _)
    cases hstep <;> exact h.trans ⟨rfl, rfl, rfl, rfl⟩
  rcases hc.frame with ⟨a, rows, rfl, -⟩
  exact hm

theorem Captured.refEntries_eq (hc : Captured types p s s₁ m out t) :
    s₁.refEntries types = if t.index.reverse.isSome then t.pendingRefs types else [] := by
  have hreverse := hc.sameReverse.reverse
  rcases hc.frame with ⟨a, rows, rfl, -⟩
  unfold refEntries
  rw [hreverse]
  rfl

theorem Captured.plain (hc : Captured types p s s₁ m out t) :
    ∀ e ∈ t.pending.entries, BlobsPlain types t e.2 := by
  have hplain := encodePending_plain hc.encoded
  rcases hc.frame with ⟨a, rows, rfl, -⟩
  exact hplain

/-- A commit drops the cached postings it makes stale: it writes an indexed value
    or deletes something, unless there are none. -/
def DropsCache (types : Types) (s : Store) : Prop :=
  s.index.reverse = none → s.index.reverseBlob ≠ none →
    s.indexEntries types ≠ [] ∨ s.deleted.entries ≠ []

instance : Decidable (DropsCache types s) := inferInstanceAs (Decidable (_ → _ → _))

/-- The reverse index of a store is that of its storage. -/
def ReverseKept (s : Store) : Prop := s.index.ReverseOk s.backend

/-- What the index names behind a commit that completed. -/
theorem commit_folds {tid : Nat} (hrem : s₁.index.Remembered) (hc : Captured types p s s₁ m out t)
    (hrev : s₁.index.reverse = some rev)
    (hrun : p3Finalize (captured types s₁ t out)
      (applyBatch (captured types s₁ t out).batch (t.settle types)) = .ok tid u) :
    u.index.reverse = some (foldedEdges rev (s₁.refEntries types) s₁.deleted.keys) := by
  rcases p3Finalize_ok hrun with ⟨m', hp, r, pl, happly, -, rfl⟩
  have hsame := hc.sameReverse
  have hfold := apply_sameReverse (t.indexEntries types) t.index
  rw [happly] at hfold
  have hkept : t.index.invalidateReverseBlob (!(t.indexEntries types).isEmpty) = t.index := by
    unfold invalidateReverseBlob
    rw [hsame.reverse, hrev, Option.isNone_some, Bool.and_false, if_neg (by decide)]
  rw [hkept] at hfold
  have hdeleted : t.deleted = s₁.deleted := by
    rcases hc.frame with ⟨a, rows, rfl, -⟩
    rfl
  have hall := foldRest_some (captured types s₁ t out)
    ((hsame.trans hfold).remembered hrem) ((hsame.trans hfold).reverse.trans hrev)
  rw [← hdeleted]
  exact hall

/-- A commit that completes keeps the reverse index. -/
theorem finalize_reverse {tid : Nat} (hcoh : Coherent kind t)
    (hb : BatchOk types t t.pending.entries t out) (hrem : s₁.index.Remembered)
    (hok : t.ReverseKept) (hc : Captured types p s s₁ m out t) (hagree : HandlesAgree types s₁)
    (hdrops : DropsCache types s₁)
    (hrun : p3Finalize (captured types s₁ t out)
      (applyBatch (captured types s₁ t out).batch (t.settle types)) = .ok tid u) :
    u.ReverseKept := by
  have hbackend : u.backend = t.backend.apply (t.buildBatch out) := by
    rcases p3Finalize_ok hrun with ⟨m', hp, r, pl, happly, -, rfl⟩
    rfl
  have hsame := hc.sameReverse
  unfold ReverseKept
  rw [hbackend]
  cases hrev : s₁.index.reverse with
  | some rev =>
      have hfolded := commit_folds hrem hc hrev hrun
      refine ⟨fun rev' hrev' => ?_, fun hnone => by rw [hfolded] at hnone; cases hnone⟩
      rw [hfolded, Option.some.injEq] at hrev'
      rw [← hrev', hc.refEntries_eq, hsame.reverse, hrev]
      have hagree' : HandlesAgree types t := by
        rcases hc.frame with ⟨a, rows, rfl, -⟩
        exact hagree
      have hdeleted : s₁.deleted = t.deleted := by
        rcases hc.frame with ⟨a, rows, rfl, -⟩
        rfl
      rw [hdeleted]
      exact stored_inverts hcoh hb hc.plain hagree'
        (hok.built rev (hsame.reverse.trans hrev))
  | none =>
      -- Nothing is folded, so nothing may be cached any more.
      rcases p3Finalize_ok hrun with ⟨m', hp, r, pl, happly, -, rfl⟩
      have hfold := apply_sameReverse (t.indexEntries types) t.index
      rw [happly] at hfold
      have hnone : t.index.reverse = none := hsame.reverse.trans hrev
      have hnone' : m'.reverse = none := by
        refine hfold.reverse.trans ?_
        unfold invalidateReverseBlob
        split <;> exact hnone
      rcases foldRest_none (captured types s₁ t out) hnone' with ⟨hgone, hblob⟩
      refine ⟨fun rev' hrev' => ?_, fun _ rev' hrev' => ?_⟩
      · have hgone' := hgone.symm.trans hrev'
        cases hgone'
      · exfalso
        rcases hblob with hblob | ⟨hdel, hblob⟩
        · have hcontra := hblob.symm.trans hrev'
          cases hcontra
        · have hcached : (t.index.invalidateReverseBlob
              (!(t.indexEntries types).isEmpty)).reverseBlob = some rev' :=
            hfold.blob.symm.trans (hblob.symm.trans hrev')
          have hentries : s₁.indexEntries types = t.indexEntries types ∧
              s₁.deleted.entries = t.deleted.entries := by
            rcases hc.frame with ⟨a, rows, rfl, -⟩
            exact ⟨rfl, rfl⟩
          have hdropped : t.indexEntries types = [] := by
            by_contra hne
            unfold invalidateReverseBlob at hcached
            rw [hnone, Option.isNone_none, Bool.and_true, if_pos (by simpa using hne)] at hcached
            cases hcached
          unfold invalidateReverseBlob at hcached
          rw [hdropped, List.isEmpty_nil, Bool.not_true, Bool.false_and,
            if_neg (by decide)] at hcached
          rcases hdrops hrev (by rw [← hsame.blob, hcached]; simp) with hne | hne
          · exact hne (hentries.1.trans hdropped)
          · exact hne (hentries.2.trans hdel)

end Folds

end Store

end DataCrystal
