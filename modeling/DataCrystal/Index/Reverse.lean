import DataCrystal.Lib.Postings
import DataCrystal.Lib.Raise
import DataCrystal.Index.Manager

/-!
# The Reverse Index

The reverse index and the check that asks it what a deletion leaves behind.

The postings are folded by difference: a write takes its record out of the
postings it was remembered under and puts it into the ones it refers to now. The
memory is exactly the postings, read the other way round, whether it was kept
along, built with them or is still to be recovered after a load. `Remembered`
says so, and under it the fold of a commit is a redirection of each written
record and a withdrawal of each deleted one.

The dangling check does not fold anything. It goes through the dead OIDs, takes
the posting of each as it is before the commit and reconciles it with what the
commit's own records refer to. That the two agree is `posting_folded`.

## Main definitions

* `survivingReferrers`, `flaggedDeletes`: The dangling check.
* `Remembered`: The memory of the fold is the postings.
* `Backend.Refers`, `Inverts`: The postings are those of the stored records.
* `ReverseOk`: What the manager keeps about references is what storage holds.

## Theorems

* `posting_folded`: The check finds what the folds leave.
* `buildReverse_inverts`: A build.
* `foldReverse_ok`: The fold of a commit.
-/

namespace DataCrystal

open Postings

/-- The stored record of an OID refers to another. -/
def Backend.Refers (b : Backend) (n k : Nat) : Prop :=
  ∃ rec, b.objects.get? n = some rec ∧ k ∈ harvestRefOids rec.payload

namespace IndexManager

/-- The referrers of a dead OID behind one written entity, which points at it now
    or does not any more. -/
def reconcile (dead : Nat) (referrers : Finset Nat) (e : RefEntry) : Finset Nat :=
  if dead ∈ e.2 then insert e.1 referrers else referrers.erase e.1

/-- The referrers a dead OID has left behind a commit: those of before it,
    reconciled with its writes, but for those it deletes. -/
def survivingReferrers (rev : RefEdges) (entries : List RefEntry) (deleted : List Nat)
    (dead : Nat) : Finset Nat :=
  entries.foldl (reconcile dead) (posting rev dead) \ deleted.toFinset

/-- The dead OIDs that are still referred to, each with its referrers. -/
def flaggedDeletes (rev : RefEdges) (entries : List RefEntry) (deleted : List Nat) :
    List (Nat × Finset Nat) :=
  (deleted.map fun dead => (dead, survivingReferrers rev entries deleted dead)).filter fun f =>
    f.2.Nonempty

/-- The records the index names for an OID, once it is built. -/
def incomingOids (m : IndexManager) (target : Nat) : Finset Nat := posting (m.reverse.getD ∅) target

/-- The postings behind the folds of a commit. -/
def foldedEdges (rev : RefEdges) (entries : List RefEntry) (deleted : List Nat) : RefEdges :=
  deleted.foldl (fun edges d => withdraw d edges)
    (entries.foldl (fun edges e => redirect e.1 e.2 edges) rev)

/-- What the fold remembers of a record is what the postings say. -/
def Remembered (m : IndexManager) : Prop :=
  ∀ rev, m.reverse = some rev → m.withReverseRefs.reverseRefs = rev

/-- The postings are those of the stored records: an OID refers to another there if
    and only if a field of its record does. -/
def Inverts (b : Backend) (rev : RefEdges) : Prop := ∀ k n, (k, n) ∈ rev ↔ b.Refers n k

/-- What a manager keeps about references is what storage holds: the postings, if
    they are built, and else the blob they would be loaded from. -/
structure ReverseOk (b : Backend) (m : IndexManager) : Prop where
  built : ∀ rev, m.reverse = some rev → Inverts b rev
  cached : m.reverse = none → ∀ rev, m.reverseBlob = some rev → Inverts b rev

/-- Two managers that keep the same about references. The forward operations leave
    all of it alone, so each of them is one such step. -/
structure SameReverse (m m' : IndexManager) : Prop where
  reverse : m'.reverse = m.reverse
  refs : m'.reverseRefs = m.reverseRefs
  dirty : m'.reverseRefsDirty = m.reverseRefsDirty
  blob : m'.reverseBlob = m.reverseBlob

variable {b : Backend} {m m' : IndexManager} {rev : RefEdges} {entries : List RefEntry}
  {deleted : List Nat}

/-- Nothing that is not built is remembered wrongly. -/
theorem remembered_of_none (h : m.reverse = none) : m.Remembered := by
  intro rev hrev
  rw [h] at hrev
  cases hrev

section Check

theorem posting_redirects (entries : List RefEntry) (dead : Nat) : ∀ rev : RefEdges,
    posting (entries.foldl (fun edges e => redirect e.1 e.2 edges) rev) dead =
      entries.foldl (reconcile dead) (posting rev dead) := by
  induction entries with
  | nil => exact fun rev => rfl
  | cons e entries ih =>
      intro rev
      rw [List.foldl_cons, List.foldl_cons, ih, posting_redirect]
      rfl

/-- What the check finds for a dead OID is its posting behind the folds. -/
theorem posting_folded (rev : RefEdges) (entries : List RefEntry) (deleted : List Nat)
    (dead : Nat) : posting (foldedEdges rev entries deleted) dead =
      survivingReferrers rev entries deleted dead := by
  ext n
  unfold survivingReferrers foldedEdges
  rw [mem_posting, mem_foldl_withdraw, Finset.mem_sdiff, List.mem_toFinset,
    ← posting_redirects entries dead rev, mem_posting]

/-- The pairs the check flags. -/
theorem mem_flaggedDeletes {dead n : Nat} :
    (∃ ns, (dead, ns) ∈ flaggedDeletes rev entries deleted ∧ n ∈ ns) ↔
      dead ∈ deleted ∧ n ∈ posting (foldedEdges rev entries deleted) dead := by
  unfold flaggedDeletes
  rw [posting_folded]
  constructor
  · rintro ⟨ns, hmem, hn⟩
    rcases List.mem_map.mp (List.mem_of_mem_filter hmem) with ⟨d, hd, heq⟩
    rcases Prod.mk.inj heq with ⟨rfl, rfl⟩
    exact ⟨hd, hn⟩
  · rintro ⟨hd, hn⟩
    refine ⟨_, List.mem_filter.mpr ⟨List.mem_map.mpr ⟨dead, hd, rfl⟩, ?_⟩, hn⟩
    exact decide_eq_true ⟨n, hn⟩

end Check

section Fold

theorem dropReferrer_same (referrer : Nat) (rev : RefEdges) :
    dropReferrer referrer (rev, rev) = (withdraw referrer rev, withdraw referrer rev) := by
  unfold dropReferrer withdraw
  refine Prod.ext (Finset.filter_congr fun e he => ?_) rfl
  simp [he]

theorem applyRefEntry_same (e : RefEntry) (rev : RefEdges) :
    applyRefEntry (rev, rev) e = (redirect e.1 e.2 rev, redirect e.1 e.2 rev) := by
  unfold applyRefEntry
  rw [dropReferrer_same]
  rfl

theorem foldl_applyRefEntry (entries : List RefEntry) : ∀ rev : RefEdges,
    entries.foldl applyRefEntry (rev, rev) =
      (entries.foldl (fun edges e => redirect e.1 e.2 edges) rev,
        entries.foldl (fun edges e => redirect e.1 e.2 edges) rev) := by
  induction entries with
  | nil => exact fun rev => rfl
  | cons e entries ih =>
      intro rev
      rw [List.foldl_cons, applyRefEntry_same, ih]
      rfl

theorem foldl_dropReferrer (deleted : List Nat) : ∀ rev : RefEdges,
    deleted.foldl (fun acc d => dropReferrer d acc) (rev, rev) =
      (deleted.foldl (fun edges d => withdraw d edges) rev,
        deleted.foldl (fun edges d => withdraw d edges) rev) := by
  induction deleted with
  | nil => exact fun rev => rfl
  | cons d deleted ih =>
      intro rev
      rw [List.foldl_cons, dropReferrer_same, ih]
      rfl

theorem withReverseRefs_eq (h : m.Remembered) (hrev : m.reverse = some rev) :
    m.withReverseRefs = { m with reverseRefs := rev, reverseRefsDirty := false } := by
  have hrefs := h rev hrev
  unfold withReverseRefs at hrefs ⊢
  by_cases hdirty : m.reverseRefsDirty = true
  · rw [if_pos hdirty, hrev]
    rfl
  · rw [if_neg hdirty] at hrefs ⊢
    rw [← hrefs, ← Bool.eq_false_iff.mpr hdirty]

/-- The fold of written entities into an index that is built. -/
theorem applyReverse_some (h : m.Remembered) (hrev : m.reverse = some rev) :
    m.applyReverse entries = { m with
      reverse := some (entries.foldl (fun edges e => redirect e.1 e.2 edges) rev)
      reverseRefs := entries.foldl (fun edges e => redirect e.1 e.2 edges) rev
      reverseRefsDirty := false } := by
  unfold applyReverse
  rw [hrev, withReverseRefs_eq h hrev]
  dsimp only
  rw [foldl_applyRefEntry]

theorem applyReverse_none (hrev : m.reverse = none) : m.applyReverse entries = m := by
  unfold applyReverse
  rw [hrev]

/-- The fold of deleted records into an index that is built. -/
theorem removeReverse_some (h : m.Remembered) (hrev : m.reverse = some rev) :
    m.removeReverse deleted = { m with
      reverse := some (deleted.foldl (fun edges d => withdraw d edges) rev)
      reverseRefs := deleted.foldl (fun edges d => withdraw d edges) rev
      reverseRefsDirty := false } := by
  have hkept : m.invalidateReverseBlob (!deleted.isEmpty) = m := by
    unfold invalidateReverseBlob
    rw [hrev, Option.isNone_some, Bool.and_false, if_neg (by decide)]
  unfold removeReverse
  rw [hkept]
  dsimp only
  rw [hrev, withReverseRefs_eq h hrev]
  dsimp only
  rw [foldl_dropReferrer]

theorem removeReverse_none (hrev : m.reverse = none) :
    m.removeReverse deleted = m.invalidateReverseBlob (!deleted.isEmpty) := by
  unfold removeReverse
  have hnone : (m.invalidateReverseBlob (!deleted.isEmpty)).reverse = none := by
    unfold invalidateReverseBlob
    split <;> exact hrev
  dsimp only
  rw [hnone]

/-- A memory kept next to its postings is remembered. -/
theorem remembered_of_kept (h : ∀ rev, m.reverse = some rev → m.reverseRefs = rev) :
    m.Remembered := by
  intro rev hrev
  unfold withReverseRefs
  split
  · rw [hrev]
    rfl
  · exact h rev hrev

theorem applyReverse_remembered (h : m.Remembered) (entries : List RefEntry) :
    (m.applyReverse entries).Remembered := by
  cases hrev : m.reverse with
  | none =>
      rw [applyReverse_none hrev]
      exact h
  | some rev =>
      rw [applyReverse_some h hrev]
      exact remembered_of_kept fun rev' hrev' => Option.some.inj hrev'

theorem SameReverse.trans {m'' : IndexManager} (h : SameReverse m m') (h' : SameReverse m' m'') :
    SameReverse m m'' :=
  ⟨h'.reverse.trans h.reverse, h'.refs.trans h.refs, h'.dirty.trans h.dirty, h'.blob.trans h.blob⟩

theorem sameReverse_refl (m : IndexManager) : SameReverse m m := ⟨rfl, rfl, rfl, rfl⟩

theorem Remembered.congr (h : m.Remembered) (hreverse : m'.reverse = m.reverse)
    (hrefs : m'.reverseRefs = m.reverseRefs) (hdirty : m'.reverseRefsDirty = m.reverseRefsDirty) :
    m'.Remembered := by
  intro rev hrev
  have hsame := h rev (hreverse ▸ hrev)
  unfold withReverseRefs at hsame ⊢
  rw [hdirty]
  by_cases hd : m.reverseRefsDirty = true
  · rw [if_pos hd] at hsame ⊢
    rw [hreverse]
    exact hsame
  · rw [if_neg hd] at hsame ⊢
    rw [hrefs]
    exact hsame

theorem SameReverse.remembered (h : SameReverse m m') (hm : m.Remembered) : m'.Remembered :=
  hm.congr h.reverse h.refs h.dirty

theorem SameReverse.ok (h : SameReverse m m') (hm : m.ReverseOk b) : m'.ReverseOk b := by
  refine ⟨fun rev hrev => hm.built rev (h.reverse ▸ hrev), fun hnone rev hblob => ?_⟩
  exact hm.cached (h.reverse ▸ hnone) rev (h.blob ▸ hblob)

theorem invalidateReverseBlob_remembered (h : m.Remembered) (changed : Bool) :
    (m.invalidateReverseBlob changed).Remembered := by
  unfold invalidateReverseBlob
  split
  · exact h.congr rfl rfl rfl
  · exact h

theorem removeReverse_remembered (h : m.Remembered) (deleted : List Nat) :
    (m.removeReverse deleted).Remembered := by
  cases hrev : m.reverse with
  | none =>
      rw [removeReverse_none hrev]
      exact invalidateReverseBlob_remembered h _
  | some rev =>
      rw [removeReverse_some h hrev]
      exact remembered_of_kept fun rev' hrev' => Option.some.inj hrev'

end Fold

section Build

theorem mem_buildReverse (recs : List StoredRecord) (k n : Nat) : ∀ edges : RefEdges,
    (k, n) ∈ recs.foldl (fun edges rec => edges ∪ edgesOf rec.oid (harvestRefOids rec.payload))
      edges ↔ (k, n) ∈ edges ∨ ∃ rec ∈ recs, rec.oid = n ∧ k ∈ harvestRefOids rec.payload := by
  induction recs with
  | nil => exact fun edges => by simp
  | cons rec recs ih =>
      intro edges
      have hone : (k, n) ∈ edgesOf rec.oid (harvestRefOids rec.payload) ↔
          rec.oid = n ∧ k ∈ harvestRefOids rec.payload := by
        unfold edgesOf
        rw [Finset.mem_image]
        constructor
        · rintro ⟨t, ht, heq⟩
          rcases Prod.mk.inj heq with ⟨rfl, rfl⟩
          exact ⟨rfl, ht⟩
        · rintro ⟨rfl, hk⟩
          exact ⟨k, hk, rfl⟩
      rw [List.foldl_cons, ih, Finset.mem_union, hone, or_assoc]
      simp only [List.mem_cons, exists_eq_or_imp]

/-- A build inverts the stored records, if it scans every shape they have. -/
theorem buildReverse_inverts {cids : List Nat} (hf : b.Filed)
    (hcids : ∀ n rec, b.objects.get? n = some rec → rec.cid ∈ cids) :
    Inverts b (buildReverse b cids) := by
  intro k n
  unfold buildReverse
  rw [mem_buildReverse]
  constructor
  · rintro (hnone | ⟨rec, hrec, rfl, hk⟩)
    · exact absurd hnone (Finset.notMem_empty _)
    · rcases List.mem_flatMap.mp hrec with ⟨cid, -, hscan⟩
      exact ⟨rec, ((Backend.mem_scanType hf cid rec).mp hscan).1, hk⟩
  · rintro ⟨rec, hget, hk⟩
    have hoid : rec.oid = n := hf n rec hget
    refine Or.inr ⟨rec, List.mem_flatMap.mpr ⟨rec.cid, hcids n rec hget, ?_⟩, hoid, hk⟩
    exact (Backend.mem_scanType hf rec.cid rec).mpr ⟨by rw [hoid]; exact hget, rfl⟩

theorem ensureReverse_remembered (h : m.Remembered) (b : Backend) (cids : List Nat) :
    (m.ensureReverse b cids).Remembered := by
  unfold ensureReverse
  by_cases hsome : m.reverse.isSome = true
  · rw [if_pos hsome]
    exact h
  · rw [if_neg hsome]
    cases m.reverseBlob with
    | some rev =>
        -- The memory is recovered from what was loaded.
        intro rev' hrev'
        exact Option.some.inj hrev'
    | none => exact remembered_of_kept fun rev' hrev' => Option.some.inj hrev'

theorem ensureReverse_ok {cids : List Nat} (h : m.ReverseOk b) (hf : b.Filed)
    (hcids : ∀ n rec, b.objects.get? n = some rec → rec.cid ∈ cids) :
    (m.ensureReverse b cids).ReverseOk b ∧ ∃ rev, (m.ensureReverse b cids).reverse = some rev := by
  unfold ensureReverse
  by_cases hsome : m.reverse.isSome = true
  · rw [if_pos hsome]
    exact ⟨h, Option.isSome_iff_exists.mp hsome⟩
  · rw [if_neg hsome]
    cases hblob : m.reverseBlob with
    | some rev =>
        refine ⟨⟨fun rev' hrev' => ?_, fun hnone => nomatch hnone⟩, rev, rfl⟩
        rw [← Option.some.inj hrev']
        exact h.cached (by simpa using hsome) rev hblob
    | none =>
        refine ⟨⟨fun rev' hrev' => ?_, fun hnone => nomatch hnone⟩, _, rfl⟩
        rw [← Option.some.inj hrev']
        exact buildReverse_inverts hf hcids

end Build

section Frame

/-- Folding the written entities into the class indexes leaves the references
    alone, also when it raises half way. -/
theorem apply_sameReverse (entries : List IndexEntry) (m : IndexManager) :
    SameReverse (m.invalidateReverseBlob (!entries.isEmpty)) (finalState (apply entries m)) := by
  have hloop : Moves SameReverse (entries.forM applyEntry) := by
    refine moves_forM (fun e => moves_get_bind fun m => ?_) entries
    cases hci : m.byCls.get? e.2.1 with
    | none => exact movesAt_modify ⟨rfl, rfl, rfl, rfl⟩
    | some ci =>
        unfold MovesAt onClass
        rw [finalState_zoom]
        exact .single ⟨rfl, rfl, rfl, rfl⟩
  have hrun := hloop (m.invalidateReverseBlob (!entries.isEmpty))
  exact reflTransGen_invariant (I := SameReverse _) (fun _ _ hstep h => h.trans hstep) hrun
    (sameReverse_refl _)

theorem applyDeletes_sameReverse (deletes : List (Nat × String)) : ∀ m : IndexManager,
    SameReverse m (m.applyDeletes deletes) := by
  induction deletes with
  | nil => exact sameReverse_refl
  | cons d deletes ih =>
      intro m
      refine SameReverse.trans ?_ (ih (m.applyDelete d))
      unfold applyDelete
      cases m.byCls.get? d.2 <;> exact ⟨rfl, rfl, rfl, rfl⟩

end Frame

end IndexManager

end DataCrystal
