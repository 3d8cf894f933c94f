import DataCrystal.References
import DataCrystal.Sessions

/-!
# Dangling References

A store may be opened to answer for the references its deletions leave behind:
with `debug` it warns of them, with `strict_deletes` it refuses the commit. The
check runs in the first phase, in front of every other one, and only for a commit
that deletes something. It makes the reverse index first, so the references of the
pending entities are captured, too.

Nothing else about the commit changes. Discovery and the making of the index do
not get into each other's way, so a checked commit that is not refused is an
unchecked one of a store that was asked for the referrers of something before.

That the pairs the check flags are the ones the index names behind the commit
holds in every state. That they are the references that dangle takes an index
that goes with storage, which the cached postings of a sidecar can spoil.

## Main definitions

* `DeleteChecks`: What a store was opened with.
* `flagged`: The pairs the check finds.
* `commitChecked`: A commit of such a store.
* `World.checkedStep`: The steps of a store directory whose commits are checked.
* `KeepsReverse`: The condition on one event.

## Theorems

* `commitChecked_eq`: A commit that is not refused.
* `run_remembered`: The memory of the reverse index in any run.
* `run_reverseKept`: The reverse index in a run whose events meet the condition.
* `dangling_check_exact`: The check and what a commit leaves behind.
-/

namespace DataCrystal

open Postings IndexManager

/-- What a store was opened with: warn of dangling references, or refuse the
    commit that leaves them. -/
structure DeleteChecks where
  debug : Bool := false
  strictDeletes : Bool := false
  deriving DecidableEq, Repr

namespace Store

variable {types : Types} {p : Principal} {kind : Nat → String} {s t s₁ u : Store}
  {k : DeleteChecks} {fault : Bool}

/-- Make the reverse index. -/
def withReverse (s : Store) : Store :=
  { s with index := s.index.ensureReverse s.backend (s.typeRows.map Prod.fst) }

/-- Whether a commit of the buffers is checked for dangling references. -/
def danglingCheckArmed (k : DeleteChecks) (s : Store) : Bool :=
  (k.debug || k.strictDeletes) && !s.deleted.entries.isEmpty

/-- The dead OIDs of the commit that stay referred to, each with its referrers. -/
def flagged (types : Types) (s : Store) : List (Nat × Finset Nat) :=
  flaggedDeletes (s.index.reverse.getD ∅) (s.refEntries types) s.deleted.keys

/-- Refuse a commit that leaves dangling references, or warn of them. -/
def checkDanglingDeletes (types : Types) (k : DeleteChecks) : M Unit := do
  let s ← get
  match s.flagged types with
  | [] => pure ()
  | f :: _ => raiseIf k.strictDeletes (.danglingRef f.1)

/-- The check, if it is armed, behind the making of the index. -/
def validateDeletes (types : Types) (k : DeleteChecks) : M Unit := do
  let s ← get
  if s.danglingCheckArmed k then
    -- A check asks who refers, so the postings are made for it.
    ensureReverse
    checkDanglingDeletes types k
  else pure ()

/-- The first phase of a store with checks. -/
def p1Checked (types : Types) (k : DeleteChecks) (p : Principal) : M (Option Capture) := do
  discoverNewGraphs types p
  let s ← get
  if s.pending.entries.isEmpty && s.deleted.entries.isEmpty then pure none
  else
    -- The deletes are looked at before any id is used up.
    validateDeletes types k
    let s ← get
    validateBeforeTid types p
    let out ← encodePending types s.pending.entries
    let t ← get
    modify (settle types)
    pure (some (t.captureOf types (s.refEntries types) out))

/-- Persist all buffered changes of a store with checks. -/
def commitChecked (types : Types) (k : DeleteChecks) (p : Principal) (fault : Bool) :
    M (Option Nat) := do
  let captured ← p1Checked types k p
  match captured with
  | none => pure none
  | some cap =>
    if fault then
      -- The backend refused the batch: everything captured goes back.
      modify (p2Rollback cap)
      throw .backend
    else
      modify (applyBatch cap.batch)
      let tid ← p3Finalize cap
      pure (some tid)

/-- The store a commit goes on from: with the index, if it is checked. -/
def ready (k : DeleteChecks) (s : Store) : Store :=
  if s.danglingCheckArmed k then s.withReverse else s

/-- Whether the check refuses a commit of what was discovered. -/
def refuses (types : Types) (k : DeleteChecks) (s : Store) : Bool :=
  k.strictDeletes && s.danglingCheckArmed k && !(s.withReverse.flagged types).isEmpty

section Discovery

theorem commutes_stampIfFresh (e : Queued) (oid : Nat) (fresh : Bool) :
    Commutes withReverse (stampIfFresh types p e oid fresh) := by
  refine commutes_get_bind (fun s => rfl) fun s => ?_
  split
  · exact commutes_modify fun s => rfl
  · exact commutes_pure _

theorem commutes_oidOrAdopt (o : Nat) : Commutes withReverse (oidOrAdopt types p o) := by
  refine commutes_get_bind (fun s => rfl) fun s => ?_
  split
  · exact commutes_pure _
  · refine commutes_get_bind (fun s => rfl) fun s => ?_
    split
    · exact commutes_throw _
    · exact commutes_bind (commutes_modify fun s => rfl) fun _ => commutes_pure _

theorem commutes_expand (e : Queued) (walked : List Nat) (oid : Nat) (fresh : Bool) :
    Commutes withReverse (expand types p e walked oid fresh) := by
  refine commutes_get_bind (fun s => rfl) fun s => ?_
  split
  · exact commutes_pure _
  · split
    · refine commutes_bind (commutes_stampIfFresh e oid fresh) fun _ => ?_
      refine commutes_get_bind (fun s => rfl) fun s => ?_
      exact commutes_bind (commutes_ofExcept _) fun _ => commutes_pure _
    · exact commutes_pure _

theorem commutes_registerLoop (fuel : Nat) : ∀ (queue : List Queued) (walked : List Nat),
    Commutes withReverse (registerLoop types p fuel queue walked) := by
  induction fuel with
  | zero => exact fun queue walked => commutes_pure _
  | succ fuel ih =>
      intro queue walked
      cases queue with
      | nil => exact commutes_pure _
      | cons e queue =>
          refine commutes_bind ?_ fun r => ih _ _
          refine commutes_get_bind (fun s => rfl) fun s => ?_
          refine commutes_bind (commutes_ofExcept _) fun _ => ?_
          exact commutes_bind (commutes_oidOrAdopt _) fun _ => commutes_expand _ _ _ _

/-- Discovery and the making of the reverse index do not see each other. -/
theorem commutes_discoverNewGraphs : Commutes withReverse (discoverNewGraphs types p) := by
  refine commutes_get_bind (fun s => rfl) fun s => ?_
  refine commutes_bind (commutes_foldlM (fun walked o => ?_) _ _) fun _ => commutes_pure _
  exact commutes_get_bind (fun s => rfl) fun s => commutes_registerLoop _ _ _

end Discovery

section Commit

theorem validateDeletes_ok (h : s₁.refuses types k = false) :
    validateDeletes types k s₁ = .ok () (s₁.ready k) := by
  unfold validateDeletes ready
  rw [bind_run_ok (get_run s₁)]
  unfold refuses at h
  by_cases harmed : s₁.danglingCheckArmed k = true
  · rw [if_pos harmed, if_pos harmed]
    rw [harmed, Bool.and_true] at h
    have hmade : ensureReverse s₁ = .ok () s₁.withReverse := rfl
    rw [bind_run_ok hmade]
    unfold checkDanglingDeletes
    rw [bind_run_ok (get_run _)]
    cases hflag : s₁.withReverse.flagged types with
    | nil => rfl
    | cons f rest =>
        rw [hflag, List.isEmpty_cons, Bool.not_false, Bool.and_true] at h
        dsimp only
        unfold raiseIf
        rw [h]
        rfl
  · rw [if_neg harmed, if_neg harmed]
    rfl

theorem validateDeletes_error (h : s₁.refuses types k = true) :
    ∃ dead, validateDeletes types k s₁ = .error (.danglingRef dead) s₁.withReverse := by
  unfold refuses at h
  rw [Bool.and_eq_true, Bool.and_eq_true] at h
  rcases h with ⟨⟨hstrict, harmed⟩, hflag⟩
  unfold validateDeletes
  rw [bind_run_ok (get_run s₁), if_pos harmed]
  have hmade : ensureReverse s₁ = .ok () s₁.withReverse := rfl
  rw [bind_run_ok hmade]
  unfold checkDanglingDeletes
  rw [bind_run_ok (get_run _)]
  cases hall : s₁.withReverse.flagged types with
  | nil =>
      rw [hall] at hflag
      cases hflag
  | cons f rest =>
      refine ⟨f.1, ?_⟩
      dsimp only
      unfold raiseIf
      rw [hstrict]
      rfl

/-- Discovery buffers no deletion. -/
theorem armed_discovered (hd : discoverNewGraphs types p s = .ok () s₁) :
    s₁.danglingCheckArmed k = s.danglingCheckArmed k := by
  have hdeleted := (grown_buffers ((moves_discoverNewGraphs s).of_ok hd)).2.1
  unfold danglingCheckArmed
  rw [hdeleted]

theorem discovered_ready (hd : discoverNewGraphs types p s = .ok () s₁) :
    discoverNewGraphs types p (s.ready k) = .ok () (s₁.ready k) := by
  unfold ready
  rw [armed_discovered (k := k) hd]
  by_cases harmed : s.danglingCheckArmed k = true
  · rw [if_pos harmed, if_pos harmed, commutes_discoverNewGraphs s, hd]
    rfl
  · rw [if_neg harmed, if_neg harmed]
    exact hd

theorem p1Checked_eq (hd : discoverNewGraphs types p s = .ok () s₁)
    (h : s₁.refuses types k = false) : p1Checked types k p s = p1Capture types p (s.ready k) := by
  unfold p1Checked p1Capture
  rw [bind_run_ok hd, bind_run_ok (discovered_ready (k := k) hd), bind_run_ok (get_run _),
    bind_run_ok (get_run _)]
  have hpending : (s₁.ready k).pending = s₁.pending ∧ (s₁.ready k).deleted = s₁.deleted := by
    unfold ready
    split <;> exact ⟨rfl, rfl⟩
  rw [hpending.1, hpending.2]
  by_cases hidle : (s₁.pending.entries.isEmpty && s₁.deleted.entries.isEmpty) = true
  · -- a commit of nothing deletes nothing, so nothing is checked
    have hready : s₁.ready k = s₁ := by
      unfold ready danglingCheckArmed
      rw [(Bool.and_eq_true_iff.mp hidle).2, Bool.not_true, Bool.and_false, if_neg (by decide)]
    rw [if_pos hidle, if_pos hidle, hready]
  · rw [if_neg hidle, if_neg hidle, bind_run_ok (validateDeletes_ok h), bind_run_ok (get_run _),
      hpending.1]

/-- A commit that is not refused is an unchecked one of the store that is ready for
    it. -/
theorem commitChecked_eq (hd : discoverNewGraphs types p s = .ok () s₁)
    (h : s₁.refuses types k = false) :
    commitChecked types k p fault s = commit types p fault (s.ready k) := by
  unfold commitChecked commit
  exact bind_run_congr (p1Checked_eq hd h)

/-- A refused commit raises in front of everything else. -/
theorem commitChecked_refused (fault : Bool) (hd : discoverNewGraphs types p s = .ok () s₁)
    (h : s₁.refuses types k = true) :
    ∃ dead, commitChecked types k p fault s = .error (.danglingRef dead) s₁.withReverse := by
  rcases validateDeletes_error h with ⟨dead, hraise⟩
  refine ⟨dead, ?_⟩
  have hbusy : (s₁.pending.entries.isEmpty && s₁.deleted.entries.isEmpty) = false := by
    unfold refuses danglingCheckArmed at h
    simp only [Bool.and_eq_true, Bool.not_eq_true'] at h
    rw [h.1.2.2, Bool.and_false]
  have hp1 : p1Checked types k p s = .error (.danglingRef dead) s₁.withReverse := by
    unfold p1Checked
    rw [bind_run_ok hd, bind_run_ok (get_run _), hbusy, if_neg (by decide), bind_run_error hraise]
  unfold commitChecked
  exact bind_run_error hp1

/-- A checked commit ends like an unchecked one of a store it may have prepared. -/
theorem commitChecked_ends (types : Types) (k : DeleteChecks) (p : Principal) (fault : Bool)
    (s : Store) : ∃ s', Relation.ReflTransGen (Prepares types p) s s' ∧
      Ends types p fault s' (finalState (commitChecked types k p fault s)) ∧
      (s' = s.ready k ∨ finalState (commitChecked types k p fault s) = s') := by
  have hgrow : Moves (Prepares types p) (discoverNewGraphs types p) :=
    moves_discoverNewGraphs.mono fun _ _ hg => Or.inl (.grow hg)
  have hready : Relation.ReflTransGen (Prepares types p) s (s.ready k) := by
    unfold ready
    split
    · exact .single (Or.inl .reverse)
    · exact .refl
  cases hd : discoverNewGraphs types p s with
  | error e t =>
      have hrun : commitChecked types k p fault s = .error e t := by
        unfold commitChecked p1Checked
        rw [bind_run_error (bind_run_error hd)]
      rw [hrun]
      exact ⟨t, (hgrow s).of_error hd, Or.inl .refl, Or.inr rfl⟩
  | ok x s₁ =>
      cases href : s₁.refuses types k with
      | true =>
          rcases commitChecked_refused fault hd href with ⟨dead, hrun⟩
          rw [hrun]
          have hmade : Prepares types p s₁ s₁.withReverse := Or.inl .reverse
          exact ⟨s₁.withReverse, ((hgrow s).of_ok hd).tail hmade, Or.inl .refl, Or.inr rfl⟩
      | false =>
          rw [commitChecked_eq hd href]
          exact ⟨s.ready k, hready, commit_cases types p fault _, Or.inl rfl⟩

end Commit

section Kept

variable {m : IndexManager} {out : EncodedBatch}

theorem prepares_remembered (hstep : Prepares types p s t) (h : s.index.Remembered) :
    t.index.Remembered := by
  rcases prepares_kinds hstep with hsame | ⟨m, hm, rfl⟩ | rfl | ⟨c, rfl⟩
  · rw [hsame.index]
    exact h
  · cases hm <;> exact h.congr rfl rfl rfl
  · exact ensureReverse_remembered h _ _
  · exact h

theorem prepared_remembered (hrun : Relation.ReflTransGen (Prepares types p) s t)
    (h : s.index.Remembered) : t.index.Remembered :=
  reflTransGen_invariant (I := fun u => u.index.Remembered)
    (fun _ _ hstep hs => prepares_remembered hstep hs) hrun h

/-- However a commit ends, the memory goes with the postings. -/
theorem ends_remembered (hc : Coherent kind s) (hends : Ends types p fault s u)
    (h : s.index.Remembered) : u.index.Remembered := by
  rcases hends with hprep | ⟨s₁, m, out, t, hcap, rfl⟩
  · exact prepared_remembered hprep h
  · have ht := prepared_remembered hcap.prepares h
    cases fault with
    | true =>
        rcases rollback_spec types (s₁.refEntries types) out (hcap.coherent hc) with
          ⟨_, _, _, _, _, heq, -⟩
        rw [if_pos rfl, captured, heq]
        exact ht
    | false =>
        rw [if_neg (by decide)]
        rcases foldl_flipOne types t.pending.entries t with ⟨hp, r, hflip, -⟩
        have hindex : (applyBatch (captured types s₁ t out).batch (t.settle types)).index =
            t.index := by
          simp only [applyBatch, settle, hflip]
        have hfolded := apply_sameReverse (captured types s₁ t out).indexEntries t.index
        have hkept := hfolded.remembered (invalidateReverseBlob_remembered ht _)
        rcases p3Finalize_final (captured types s₁ t out)
          (applyBatch (captured types s₁ t out).batch (t.settle types)) with ⟨e, herr⟩ | hok
        · rw [herr, finalState_error, hindex]
          exact hkept
        · rcases finishCommit_frame (captured types s₁ t out)
            { applyBatch (captured types s₁ t out).batch (t.settle types) with
              index := finalState (IndexManager.apply (captured types s₁ t out).indexEntries
                (applyBatch (captured types s₁ t out).batch (t.settle types)).index) } with
            ⟨hp', r', hfinish⟩
          rw [hok, finalState_ok, hfinish, hindex]
          exact foldRest_remembered _ hkept

/-- Operations keep the reverse index with storage. -/
theorem prepares_reverseKept (hstep : Prepares types p s t) (hc : Coherent kind s)
    (h : s.ReverseKept) : t.ReverseKept := by
  unfold ReverseKept at h ⊢
  rcases prepares_kinds hstep with hsame | ⟨m, hm, rfl⟩ | rfl | ⟨c, rfl⟩
  · rw [hsame.index, hsame.backend]
    exact h
  · have hsame : SameReverse s.index m := by
      cases hm <;> exact ⟨rfl, rfl, rfl, rfl⟩
    exact hsame.ok h
  · refine (ensureReverse_ok h (fun n rec hrec => (hc.storage.records n rec hrec).1)
      fun n rec hrec => ?_).1
    rcases (hc.storage.records n rec hrec).2.2 with ⟨names, hrow⟩
    exact List.mem_map.mpr ⟨_, hc.storage.rowsKnown _ hrow, rfl⟩
  · exact h

theorem prepared_reverseKept (hrun : Relation.ReflTransGen (Prepares types p) s t)
    (hc : Coherent kind s) (h : s.ReverseKept) : t.ReverseKept := by
  have hboth : Coherent kind t ∧ t.ReverseKept :=
    reflTransGen_invariant (I := fun u => Coherent kind u ∧ u.ReverseKept)
      (fun _ _ hst hs => ⟨prepares_coherent hst hs.1, prepares_reverseKept hst hs.1 hs.2⟩) hrun
      ⟨hc, h⟩
  exact hboth.2

/-- However a commit ends that meets the condition, the reverse index goes with
    storage. -/
theorem ends_reverseKept (hc : Coherent kind s) (hends : Ends types p fault s u)
    (hrem : s.index.Remembered) (h : s.ReverseKept)
    (hcond : fault = false → Completes types p s ∧ ∀ s₁, discoverNewGraphs types p s = .ok () s₁ →
      HandlesAgree types s₁ ∧ DropsCache types s₁) : u.ReverseKept := by
  rcases hends with hprep | ⟨s₁, m, out, t, hcap, rfl⟩
  · exact prepared_reverseKept hprep hc h
  · have ht := prepared_reverseKept hcap.prepares hc h
    cases fault with
    | true =>
        rcases rollback_spec types (s₁.refEntries types) out (hcap.coherent hc) with
          ⟨_, _, _, _, _, heq, -⟩
        rw [if_pos rfl, captured, heq]
        exact ht
    | false =>
        rcases hcond rfl with ⟨hdone, hbuf⟩
        rcases hdone s₁ m out t hcap with ⟨u, hrun⟩
        rcases hbuf s₁ hcap.discovered with ⟨hagree, hdrops⟩
        have hgrown : Relation.ReflTransGen (Prepares types p) s s₁ :=
          Relation.ReflTransGen.mono (fun _ _ hg => Or.inl (.grow hg)) _ _ hcap.grown
        rw [if_neg (by decide), hrun]
        exact finalize_reverse (hcap.coherent hc) (hcap.batchOk hc)
          (prepared_remembered hgrown hrem) ht hcap hagree hdrops hrun

end Kept

end Store

namespace World

variable {w : World} {kind : Nat → String}

/-- One event of a store directory whose sessions are opened with checks. -/
def checkedStep (w : World) (e : DeleteChecks × Event) : World :=
  match e.2 with
  | .act p (.commit fault) =>
    { w with store := finalState (Store.commitChecked w.types e.1 p fault w.store) }
  | ev => w.step ev

/-- The world after some events. -/
def checkedRun (w : World) (events : List (DeleteChecks × Event)) : World :=
  events.foldl checkedStep w

/-- A commit that is stored also goes through its third phase, the handles of its
    entities agree, and it drops the cached postings it makes stale. -/
def KeepsReverse (w : World) (e : DeleteChecks × Event) : Prop :=
  match e.2 with
  | .act p (.commit false) => Store.Completes w.types p (w.store.ready e.1) ∧
      ∀ s₁, Store.discoverNewGraphs w.types p (w.store.ready e.1) = .ok () s₁ →
        Store.HandlesAgree w.types s₁ ∧ Store.DropsCache w.types s₁
  | _ => True

/-- The sidecar is never ahead of storage, and at its watermark it has its
    postings. -/
def SidecarInverts (b : Backend) (sidecar : Option Sidecar) : Prop :=
  ∀ sc, sidecar = some sc → sc.watermark + 1 ≤ b.marks.nextTid ∧
    (sc.watermark + 1 = b.marks.nextTid → ∀ rev, sc.reverse = some rev → Inverts b rev)

/-- The reverse index and the copy of it in the sidecar go with storage, and the
    counters are level with it. The run of a store that checks its deletes keeps
    this. -/
structure ReverseKept (w : World) : Prop where
  store : w.store.ReverseKept
  inStep : w.store.InStep
  sidecar : SidecarInverts w.store.backend w.sidecar

theorem checkedStep_cases (w : World) (e : DeleteChecks × Event) :
    (∃ p fault, e.2 = .act p (.commit fault) ∧ w.checkedStep e =
      { w with store := finalState (Store.commitChecked w.types e.1 p fault w.store) }) ∨
      (∀ p fault, e.2 ≠ .act p (.commit fault)) ∧ w.checkedStep e = w.step e.2 := by
  rcases e with ⟨k, ev⟩
  cases ev with
  | act p op =>
      cases op with
      | commit fault => exact Or.inl ⟨p, fault, rfl, rfl⟩
      | _ => exact Or.inr ⟨fun _ _ h => (nomatch h), rfl⟩
  | closeAndOpen types => exact Or.inr ⟨fun _ _ h => (nomatch h), rfl⟩
  | crashAndOpen types => exact Or.inr ⟨fun _ _ h => (nomatch h), rfl⟩

/-- A checked event keeps a world coherent. -/
theorem checkedStep_coherent (h : w.Coherent kind) (e : DeleteChecks × Event) :
    ∃ kind', (w.checkedStep e).Coherent kind' := by
  rcases checkedStep_cases w e with ⟨p, fault, -, hstep⟩ | ⟨-, hstep⟩
  · rw [hstep]
    rcases Store.commitChecked_ends w.types e.1 p fault w.store with ⟨s', hprep, hends, -⟩
    have hs' : ({ w with store := s' } : World).Coherent kind := by
      refine ⟨reflTransGen_invariant (I := Store.Coherent kind)
        (fun _ _ he => Store.prepares_coherent he) hprep h.store, ?_⟩
      intro sc c blob hsc hblob f key k hk
      rw [Store.Known, Store.backend_of_prepares hprep]
      exact h.sidecar sc c blob hsc hblob f key k hk
    exact coherent_of_ends (w := { w with store := s' }) hs' hends
  · rcases step_coherent h e.2 with ⟨kind', h', -⟩
    exact ⟨kind', by rw [hstep]; exact h'⟩

theorem checkedRun_coherent (types : Types) (events : List (DeleteChecks × Event)) :
    ∃ kind, ((start types).checkedRun events).Coherent kind := by
  induction events using List.reverseRecOn with
  | nil => exact ⟨fun _ => "", start_coherent types _⟩
  | append_singleton events e ih =>
      rcases ih with ⟨kind, h⟩
      rw [checkedRun, List.foldl_append]
      exact checkedStep_coherent h e

/-- A new session remembers nothing yet. -/
theorem reopen_remembered (types : Types) (sidecar : Option Sidecar) (b : Backend) :
    (reopen types sidecar b).store.index.Remembered := IndexManager.remembered_of_none rfl

theorem checkedStep_remembered (hc : w.Coherent kind) (h : w.store.index.Remembered)
    (e : DeleteChecks × Event) : (w.checkedStep e).store.index.Remembered := by
  rcases checkedStep_cases w e with ⟨p, fault, -, hstep⟩ | ⟨hno, hstep⟩
  · rw [hstep]
    rcases Store.commitChecked_ends w.types e.1 p fault w.store with ⟨s', hprep, hends, -⟩
    have hs' : s'.Coherent kind := reflTransGen_invariant (I := Store.Coherent kind)
      (fun _ _ he => Store.prepares_coherent he) hprep hc.store
    exact Store.ends_remembered hs' hends (Store.prepared_remembered hprep h)
  · -- every other event leaves the checks aside
    rw [hstep]
    cases he : e.2 with
    | closeAndOpen types => exact reopen_remembered _ _ _
    | crashAndOpen types => exact reopen_remembered _ _ _
    | act p op =>
        rcases op.kinds with hop | ⟨fault, rfl⟩ | rfl
        · have hmoves := Relation.ReflTransGen.mono
            (fun _ _ hstep => (Or.inl hstep : Store.Prepares w.types p _ _)) _ _
            (moves_op w.types p op hop w.store)
          exact Store.prepared_remembered hmoves h
        · exact absurd he (hno p fault)
        · exact IndexManager.remembered_of_none rfl

/-- In every run the memory goes with the postings. -/
theorem run_remembered (types : Types) (events : List (DeleteChecks × Event)) :
    ((start types).checkedRun events).store.index.Remembered := by
  induction events using List.reverseRecOn with
  | nil => exact reopen_remembered types none {}
  | append_singleton events e ih =>
      rcases checkedRun_coherent types events with ⟨kind, hc⟩
      rw [checkedRun, List.foldl_append]
      exact checkedStep_remembered hc ih e

/-- A sidecar that goes with storage opens a session that does. -/
theorem reopen_reverseKept (types : Types) {sidecar : Option Sidecar} {b : Backend}
    (hstored : (b.types.map Prod.fst).Nodup) (hpos : 0 < b.marks.nextTid)
    (hside : SidecarInverts b sidecar) : (reopen types sidecar b).ReverseKept := by
  refine ⟨⟨fun rev hrev => ?_, fun _ rev hrev => ?_⟩, Store.loadState_inStep hstored hpos, hside⟩
  · cases hrev
  · rcases Option.bind_eq_some_iff.mp hrev with ⟨sc, hsc, hsome⟩
    rcases Option.filter_eq_some_iff.mp hsc with ⟨hfound, hcurrent⟩
    exact (hside sc hfound).2 (of_decide_eq_true hcurrent) rev hsome

/-- What a session leaves in the sidecar goes with storage. -/
theorem closed_reverse (h : w.ReverseKept) : SidecarInverts w.store.backend w.closed := by
  unfold closed
  dsimp only
  split
  · exact h.sidecar
  · intro sc hsc
    rw [← Option.some.inj hsc]
    exact ⟨Nat.le_of_eq h.inStep.lastTid, fun _ rev hrev => h.store.built rev hrev⟩

/-- The reverse index behind one event that meets the condition. -/
theorem checkedStep_reverseKept (hc : w.Coherent kind) (hrem : w.store.index.Remembered)
    (h : w.ReverseKept) {e : DeleteChecks × Event} (hcond : w.KeepsReverse e) :
    (w.checkedStep e).ReverseKept := by
  rcases checkedStep_cases w e with ⟨p, fault, he, hstep⟩ | ⟨hno, hstep⟩
  · rw [hstep]
    rcases Store.commitChecked_ends w.types e.1 p fault w.store with ⟨s', hprep, hends, hcase⟩
    have hs' : s'.Coherent kind := reflTransGen_invariant (I := Store.Coherent kind)
      (fun _ _ he => Store.prepares_coherent he) hprep hc.store
    have hin := Store.prepared_inStep hprep hc.store h.inStep
    have hkept := Store.prepared_reverseKept hprep hc.store h.store
    have hbackend : s'.backend = w.store.backend := Store.backend_of_prepares hprep
    -- The store the commit goes on from is the one made ready, or nothing was done to it.
    rcases hcase with hready | hsame
    · have hall : fault = false → Store.Completes w.types p s' ∧
          ∀ s₁, Store.discoverNewGraphs w.types p s' = .ok () s₁ →
            Store.HandlesAgree w.types s₁ ∧ Store.DropsCache w.types s₁ := by
        intro hstored
        unfold KeepsReverse at hcond
        rw [he, hstored] at hcond
        rw [hready]
        exact hcond
      refine ⟨Store.ends_reverseKept hs' hends (Store.prepared_remembered hprep hrem) hkept hall,
        ?_, ?_⟩
      · cases fault with
        | true => exact Store.refused_inStep hends hs' hin
        | false => exact Store.ends_inStep hends hs' hin (hall rfl).1
      · rcases Store.ends_backend hends with hsame | ⟨s₁, m, out, t, hcap, hstored⟩
        · dsimp only
          rw [hsame, hbackend]
          exact h.sidecar
        · -- storage is a transaction on, and the sidecar is not
          intro sc hsc
          have hti := Store.prepared_inStep hcap.prepares hs' hin
          have htb : t.backend = s'.backend := Store.backend_of_prepares hcap.prepares
          have hold := (h.sidecar sc hsc).1
          have hnext : (finalState (Store.commitChecked w.types e.1 p fault w.store)).backend.marks.nextTid =
              w.store.backend.marks.nextTid + 1 := by
            rw [hstored, ← hbackend, ← htb, ← hti.nextTid]
            rfl
          dsimp only
          rw [hnext]
          exact ⟨by omega, fun hcurrent => absurd hcurrent (by omega)⟩
    · rw [hsame]
      exact ⟨hkept, hin, by dsimp only; rw [hbackend]; exact h.sidecar⟩
  · rw [hstep]
    cases he : e.2 with
    | closeAndOpen types =>
        exact reopen_reverseKept types h.inStep.stored h.inStep.pos (closed_reverse h)
    | crashAndOpen types =>
        exact reopen_reverseKept types h.inStep.stored h.inStep.pos h.sidecar
    | act p op =>
        rcases op.kinds with hop | ⟨fault, rfl⟩ | rfl
        · have hmoves := Relation.ReflTransGen.mono
            (fun _ _ hstep => (Or.inl hstep : Store.Prepares w.types p _ _)) _ _
            (moves_op w.types p op hop w.store)
          have hb : (finalState (op.run w.types p w.store)).backend = w.store.backend :=
            Store.backend_of_prepares hmoves
          refine ⟨Store.prepared_reverseKept hmoves hc.store h.store,
            Store.prepared_inStep hmoves hc.store h.inStep, ?_⟩
          change SidecarInverts (finalState (op.run w.types p w.store)).backend w.sidecar
          rw [hb]
          exact h.sidecar
        · exact absurd he (hno p fault)
        · -- a discard drops the reverse index and its cached blob
          have hb := Store.backend_discard w.store
          refine ⟨⟨fun rev hrev => ?_, fun _ rev hrev => ?_⟩, Store.discard_inStep h.inStep, ?_⟩
          · cases hrev
          · cases hrev
          change SidecarInverts w.store.discard.backend w.sidecar
          rw [hb]
          exact h.sidecar

/-- The worlds of a run whose events meet the condition. -/
theorem run_reverseKept (types : Types) (events : List (DeleteChecks × Event))
    (hrun : EachStep checkedStep KeepsReverse (start types) events) :
    ((start types).checkedRun events).ReverseKept := by
  induction events using List.reverseRecOn with
  | nil =>
      have hside : SidecarInverts ({} : Backend) none := fun sc hsc => by cases hsc
      exact reopen_reverseKept (b := {}) types List.nodup_nil Nat.one_pos hside
  | append_singleton events e ih =>
      rw [eachStep_append] at hrun
      rcases checkedRun_coherent types events with ⟨kind, hc⟩
      rw [checkedRun, List.foldl_append]
      exact checkedStep_reverseKept hc (run_remembered types events) (ih hrun.1) hrun.2.1

end World

namespace Store

variable {types : Types} {p : Principal} {s s₁ : Store} {rev : RefEdges}

/-- The check finds a record that refers to a dead OID, in the pairs it reports
    before it warns or raises. -/
def Flags (types : Types) (s : Store) (dead n : Nat) : Prop :=
  ∃ ns, (dead, ns) ∈ s.flagged types ∧ n ∈ ns

/-- The indexes as the folds of the reverse index leave them. -/
def foldReverse (types : Types) (s : Store) : IndexManager :=
  (s.index.applyReverse (s.refEntries types)).removeReverse s.deleted.keys

/-- The index is built behind its making. -/
theorem withReverse_built (s : Store) : ∃ rev, s.withReverse.index.reverse = some rev := by
  unfold withReverse IndexManager.ensureReverse
  dsimp only
  by_cases hsome : s.index.reverse.isSome = true
  · rw [if_pos hsome]
    exact Option.isSome_iff_exists.mp hsome
  · rw [if_neg hsome]
    cases s.index.reverseBlob <;> exact ⟨_, rfl⟩

theorem flags_iff (hrev : s.index.reverse = some rev) {dead n : Nat} : s.Flags types dead n ↔
    dead ∈ s.deleted.keys ∧
      n ∈ posting (foldedEdges rev (s.refEntries types) s.deleted.keys) dead := by
  unfold Flags flagged
  rw [hrev, Option.getD_some]
  exact mem_flaggedDeletes

/-- What the folds leave of a posting. -/
theorem incomingOids_foldReverse (hrem : s.index.Remembered) (hrev : s.index.reverse = some rev)
    (dead : Nat) : (s.foldReverse types).incomingOids dead =
      posting (foldedEdges rev (s.refEntries types) s.deleted.keys) dead := by
  have happlied := applyReverse_remembered hrem (s.refEntries types)
  have hsome : s.index.applyReverse (s.refEntries types) = _ := applyReverse_some hrem hrev
  have hedges := congrArg IndexManager.reverse hsome
  unfold incomingOids foldReverse
  rw [removeReverse_some happlied hedges]
  rfl

/-- A commit that went through has captured a batch, or there was none. -/
theorem commit_ok {tid : Nat} {u : Store} (h : commit types p false s = .ok (some tid) u) :
    ∃ s₁ m out t, Captured types p s s₁ m out t ∧
      p3Finalize (captured types s₁ t out)
        (applyBatch (captured types s₁ t out).batch (t.settle types)) = .ok tid u := by
  rcases bind_ok_iff.mp h with ⟨captured, v, hp1, h⟩
  rcases p1Capture_ok hp1 with ⟨rfl, -⟩ | ⟨s₁, m, out, t, hcap, rfl, rfl⟩
  · cases h
  · refine ⟨s₁, m, out, t, hcap, ?_⟩
    dsimp only at h
    rw [if_neg (by decide), bind_run_ok (modify_run _ _)] at h
    rcases bind_ok_iff.mp h with ⟨tid', v, hrun, h⟩
    cases h
    exact hrun

/-- A store that only warns refuses nothing. -/
theorem warns_refuses (debug : Bool) : s₁.refuses types ⟨debug, false⟩ = false := by
  unfold refuses
  simp

/-- A strict store refuses what a store that only warns would flag. -/
theorem refuses_strict_iff (debug : Bool) (hdel : s₁.deleted.entries ≠ []) :
    s₁.refuses types ⟨debug, true⟩ = true ↔ ∃ dead n, s₁.withReverse.Flags types dead n := by
  have hfull : (!s₁.deleted.entries.isEmpty) = true := by simpa using hdel
  unfold refuses danglingCheckArmed
  rw [hfull]
  simp only [Bool.or_true, Bool.and_true, Bool.true_and]
  constructor
  · intro hne
    have hflag : s₁.withReverse.flagged types ≠ [] := by simpa using hne
    rcases List.exists_mem_of_ne_nil _ hflag with ⟨⟨dead, ns⟩, hmem⟩
    have hns : ns.Nonempty := by
      have hkept := (List.mem_filter.mp hmem).2
      exact of_decide_eq_true hkept
    rcases hns with ⟨n, hn⟩
    exact ⟨dead, n, ns, hmem, hn⟩
  · rintro ⟨dead, n, ns, hmem, -⟩
    have hflag : s₁.withReverse.flagged types ≠ [] := fun hnil => by
      rw [hnil] at hmem
      exact absurd hmem List.not_mem_nil
    simpa using hflag

end Store

/-- In every run the pairs the check flags are those the index names behind the
    folds of the commit, and behind the commit itself where it goes through. In a
    run whose events meet the condition a strict store raises on such a commit if
    and only if a record it leaves refers to an OID it deletes. -/
theorem dangling_check_exact (types : Types) (events : List (DeleteChecks × Event))
    (p : Principal) (s₁ : Store) :
    let w := (World.start types).checkedRun events
    let s₂ := s₁.withReverse
    let commit := fun k => Store.commitChecked w.types k p false w.store
    Store.discoverNewGraphs w.types p w.store = .ok () s₁ → s₁.deleted.entries ≠ [] →
      (∀ dead n, s₂.Flags w.types dead n ↔
        dead ∈ s₁.deleted.keys ∧ n ∈ (s₂.foldReverse w.types).incomingOids dead) ∧
      (∀ tid u, commit ⟨true, false⟩ = .ok (some tid) u → ∀ dead n,
        s₂.Flags w.types dead n ↔ dead ∈ s₁.deleted.keys ∧ n ∈ u.index.incomingOids dead) ∧
      (EachStep World.checkedStep World.KeepsReverse (World.start types) events →
        w.KeepsReverse (⟨true, false⟩, .act p (.commit false)) →
        ∀ debug tid u, commit ⟨true, false⟩ = .ok (some tid) u →
          ((∃ e t, commit ⟨debug, true⟩ = .error e t) ↔
            ∃ dead ∈ s₁.deleted.keys, ∃ n, u.backend.Refers n dead)) := by
  intro w s₂ commit hd hdel
  rcases World.checkedRun_coherent types events with ⟨kind, hc⟩
  have hgrown : Relation.ReflTransGen (Store.Prepares w.types p) w.store s₁ :=
    Relation.ReflTransGen.mono (fun _ _ hg => Or.inl (.grow hg)) _ _
      ((Store.moves_discoverNewGraphs w.store).of_ok hd)
  have hrem₁ := Store.prepared_remembered hgrown (World.run_remembered types events)
  have hrem : s₂.index.Remembered := ensureReverse_remembered hrem₁ _ _
  rcases Store.withReverse_built s₁ with ⟨rev, hrev⟩
  have hdeleted : s₂.deleted = s₁.deleted := rfl
  -- Behind a commit that only warns.
  have harmed : s₁.danglingCheckArmed ⟨true, false⟩ = true := by
    unfold Store.danglingCheckArmed
    simpa using hdel
  have hready : s₁.ready ⟨true, false⟩ = s₂ := if_pos harmed
  have hbehind : ∀ tid u, commit ⟨true, false⟩ = .ok (some tid) u → ∃ m out t,
      Store.Captured w.types p (w.store.ready ⟨true, false⟩) s₂ m out t ∧
        Store.p3Finalize (Store.captured w.types s₂ t out)
          (Store.applyBatch (Store.captured w.types s₂ t out).batch (t.settle w.types)) =
            .ok tid u ∧
        u.index.reverse = some (foldedEdges rev (s₂.refEntries w.types) s₁.deleted.keys) := by
    intro tid u hrun
    have hpass : s₁.refuses w.types ⟨true, false⟩ = false := Store.warns_refuses true
    have hcommit : commit ⟨true, false⟩ = _ := Store.commitChecked_eq hd hpass
    rcases Store.commit_ok (hcommit.symm.trans hrun) with ⟨s₁', m, out, t, hcap, hp3⟩
    have hsame : s₁' = s₂ := by
      have hboth := hcap.discovered.symm.trans (Store.discovered_ready (k := ⟨true, false⟩) hd)
      rw [← hready]
      cases hboth
      rfl
    subst hsame
    exact ⟨m, out, t, hcap, hp3, Store.commit_folds hrem hcap hrev hp3⟩
  refine ⟨fun dead n => ?_, fun tid u hrun dead n => ?_, fun hevents hcond debug tid u hrun => ?_⟩
  · rw [Store.flags_iff hrev, Store.incomingOids_foldReverse hrem hrev, hdeleted]
  · rcases hbehind tid u hrun with ⟨m, out, t, -, -, hfolded⟩
    unfold incomingOids
    rw [Store.flags_iff hrev, hfolded, Option.getD_some, hdeleted]
  · -- strict: what is refused is what is flagged, and what is flagged refers in storage
    rcases hbehind tid u hrun with ⟨m, out, t, -, -, hfolded⟩
    have hkept := World.checkedStep_reverseKept hc (World.run_remembered types events)
      (World.run_reverseKept types events hevents) hcond
    have hu : (w.checkedStep (⟨true, false⟩, .act p (.commit false))).store = u := by
      change finalState (commit ⟨true, false⟩) = u
      rw [hrun]
      rfl
    have hinverts := hkept.store.built _ (by rw [hu]; exact hfolded)
    rw [hu] at hinverts
    have hraises : (∃ e t, commit ⟨debug, true⟩ = .error e t) ↔
        s₁.refuses w.types ⟨debug, true⟩ = true := by
      constructor
      · rintro ⟨e, t, herr⟩
        by_contra hpass
        rw [Bool.not_eq_true] at hpass
        have harmed' : s₁.danglingCheckArmed ⟨debug, true⟩ = true := by
          unfold Store.danglingCheckArmed
          simpa using hdel
        -- A strict store that refuses nothing goes on like one that warns.
        have hsame : w.store.ready ⟨debug, true⟩ = w.store.ready ⟨true, false⟩ := by
          unfold Store.ready
          rw [← Store.armed_discovered hd, ← Store.armed_discovered hd, harmed, harmed']
        have hstrict : commit ⟨debug, true⟩ = _ := Store.commitChecked_eq hd hpass
        have hwarns : commit ⟨true, false⟩ = _ :=
          Store.commitChecked_eq hd (Store.warns_refuses true)
        rw [hstrict, hsame, ← hwarns, hrun] at herr
        cases herr
      · intro href
        rcases Store.commitChecked_refused false hd href with ⟨dead, herr⟩
        exact ⟨_, _, herr⟩
    rw [hraises, Store.refuses_strict_iff debug hdel]
    constructor
    · rintro ⟨dead, n, hflag⟩
      rcases (Store.flags_iff hrev).mp hflag with ⟨hdead, hn⟩
      exact ⟨dead, hdead, n, (hinverts dead n).mp (mem_posting.mp hn)⟩
    · rintro ⟨dead, hdead, n, href⟩
      exact ⟨dead, n, (Store.flags_iff hrev).mpr
        ⟨hdead, mem_posting.mpr ((hinverts dead n).mpr href)⟩⟩

/-- The third phase of entities without indexed fields has nothing to raise about. -/
theorem completes_of_unindexed {types : Types} {p : Principal} {s : Store}
    (h : ∀ s₁, Store.discoverNewGraphs types p s = .ok () s₁ → s₁.indexEntries types = []) :
    Store.Completes types p s := by
  intro s₁ m out t hcap
  have hentries : t.indexEntries types = [] := by
    have hnone := h s₁ hcap.discovered
    rcases hcap.frame with ⟨a, rows, rfl, -⟩
    exact hnone
  have hfold : IndexManager.apply (Store.captured types s₁ t out).indexEntries =
      IndexManager.apply [] := congrArg IndexManager.apply hentries
  unfold Store.p3Finalize
  rw [hfold]
  exact ⟨_, rfl⟩

/-- A commit of entities without indexed fields meets the condition if their handles
    agree and nothing stays cached. -/
theorem keepsReverse_of_unindexed {w : World} {k : DeleteChecks} {p : Principal}
    (h : ∀ s₁, Store.discoverNewGraphs w.types p (w.store.ready k) = .ok () s₁ →
      s₁.indexEntries w.types = [] ∧ Store.HandlesAgree w.types s₁ ∧ Store.DropsCache w.types s₁) :
    w.KeepsReverse (k, .act p (.commit false)) :=
  ⟨completes_of_unindexed fun s₁ hs₁ => (h s₁ hs₁).1, fun s₁ hs₁ => (h s₁ hs₁).2⟩

/-- A process with one class of cards, each of which may name the next. -/
def cardTypes : Types := fun c =>
  if c = "card" then some { dataSpecs := [{ name := "next" }] } else none

def cardOwner : Principal := { uid := 5, memberships := Dict.empty }

/-- An event of a session that refuses dangling references. -/
def strictly (e : Event) : DeleteChecks × Event := (⟨false, true⟩, e)

/-- Two cards are stored, the first naming the second, and the second is deleted. -/
def namedCard : List (DeleteChecks × Event) :=
  [.act cardOwner (.construct "card" []),
    .act cardOwner (.construct "card" [("next", .leaf (.entity 0))]),
    .act cardOwner (.store 1), .act cardOwner (.commit false), .act cardOwner (.delete 0)].map strictly

/-- Whether a first phase of the cards has no indexed value, agreeing handles and no
    stale postings. -/
def cardsReady (w : World) (k : DeleteChecks) : Prop :=
  ∀ s₁, Store.discoverNewGraphs w.types cardOwner (w.store.ready k) = .ok () s₁ →
    s₁.indexEntries w.types = [] ∧ Store.HandlesAgree w.types s₁ ∧ Store.DropsCache w.types s₁

instance (w : World) (k : DeleteChecks) : Decidable (cardsReady w k) := decidableReturning _ _

/-- The commit of the deletion is refused. -/
theorem dangling_check_on_cards :
    let w := (World.start cardTypes).checkedRun namedCard
    ∃ e t, Store.commitChecked w.types ⟨false, true⟩ cardOwner false w.store = .error e t := by
  intro w
  have hfirst : cardsReady ((World.start cardTypes).checkedRun (namedCard.take 3)) ⟨false, true⟩ := by
    decide +kernel
  have hevents : EachStep World.checkedStep World.KeepsReverse (World.start cardTypes) namedCard :=
    ⟨trivial, trivial, trivial, keepsReverse_of_unindexed hfirst, trivial, trivial⟩
  have hlast : cardsReady w ⟨true, false⟩ := by decide +kernel
  have hmet : ((outcome (Store.discoverNewGraphs w.types cardOwner w.store)).map fun r =>
      r.2.deleted.keys) = some [oidBase + 1] := by decide +kernel
  have hleft : ((outcome (Store.commitChecked w.types ⟨true, false⟩ cardOwner false w.store)).bind
      fun r => r.1.bind fun _ => (r.2.backend.objects.get? oidBase).map fun rec =>
        decide (oidBase + 1 ∈ harvestRefOids rec.payload)) = some true := by decide +kernel
  rcases Option.map_eq_some_iff.mp hmet with ⟨⟨_, s₁⟩, hfound, hkeys⟩
  have hd := outcome_eq_some.mp hfound
  rcases Option.bind_eq_some_iff.mp hleft with ⟨⟨r, u⟩, hreturned, hleft⟩
  rcases Option.bind_eq_some_iff.mp hleft with ⟨tid, rfl, hleft⟩
  have hrun := outcome_eq_some.mp hreturned
  rcases Option.map_eq_some_iff.mp hleft with ⟨rec, hrec, href⟩
  have hdel : s₁.deleted.entries ≠ [] := by
    intro hnil
    unfold Dict.keys at hkeys
    rw [hnil] at hkeys
    cases hkeys
  rcases dangling_check_exact cardTypes namedCard cardOwner s₁ hd hdel with ⟨-, -, hraises⟩
  refine (hraises hevents (keepsReverse_of_unindexed hlast) false tid u hrun).mpr
    ⟨oidBase + 1, ?_, oidBase, rec, hrec, of_decide_eq_true href⟩
  rw [hkeys]
  exact List.mem_singleton.mpr rfl

/-- Two cards are stored and the referrers of one are asked for, which leaves the
    postings in the sidecar; in the next session the first is made to name the second,
    and then the second is deleted. -/
def renamedCard : List (DeleteChecks × Event) :=
  [.act cardOwner (.construct "card" []), .act cardOwner (.construct "card" []),
    .act cardOwner (.store 0), .act cardOwner (.store 1), .act cardOwner (.commit false),
    .act cardOwner .incoming, .closeAndOpen cardTypes,
    .act cardOwner (.load oidBase), .act cardOwner (.load (oidBase + 1)),
    .act cardOwner (.setField 0 "next" (.leaf (.entity 1))), .act cardOwner (.commit false),
    .act cardOwner (.delete 1)].map strictly

/-- The strict store loads the postings of before the change, flags nothing and commits,
    and the first card refers to the deleted one. -/
theorem dangling_check_misses :
    let w := (World.start cardTypes).checkedRun renamedCard
    ¬∀ s₁ tid u, Store.discoverNewGraphs w.types cardOwner w.store = .ok () s₁ →
      Store.commitChecked w.types ⟨true, false⟩ cardOwner false w.store = .ok (some tid) u →
        ((∃ e t, Store.commitChecked w.types ⟨false, true⟩ cardOwner false w.store = .error e t) ↔
          ∃ dead ∈ s₁.deleted.keys, ∃ n, u.backend.Refers n dead) := by
  intro w h
  have hmet : ((outcome (Store.discoverNewGraphs w.types cardOwner w.store)).map fun r =>
      r.2.deleted.keys) = some [oidBase + 1] := by decide +kernel
  have hleft : ((outcome (Store.commitChecked w.types ⟨true, false⟩ cardOwner false w.store)).bind
      fun r => r.1.bind fun _ => (r.2.backend.objects.get? oidBase).map fun rec =>
        decide (oidBase + 1 ∈ harvestRefOids rec.payload)) = some true := by decide +kernel
  rcases Option.map_eq_some_iff.mp hmet with ⟨⟨_, s₁⟩, hfound, hkeys⟩
  have hd := outcome_eq_some.mp hfound
  rcases Option.bind_eq_some_iff.mp hleft with ⟨⟨r, u⟩, hreturned, hleft⟩
  rcases Option.bind_eq_some_iff.mp hleft with ⟨tid, rfl, hleft⟩
  have hrun := outcome_eq_some.mp hreturned
  rcases Option.map_eq_some_iff.mp hleft with ⟨rec, hrec, href⟩
  have hpassed : (outcome (Store.commitChecked w.types ⟨false, true⟩ cardOwner false
      w.store)).isSome = true := by decide +kernel
  have hdangles : ∃ dead ∈ s₁.deleted.keys, ∃ n, u.backend.Refers n dead := by
    refine ⟨oidBase + 1, ?_, oidBase, rec, hrec, of_decide_eq_true href⟩
    rw [hkeys]
    exact List.mem_singleton.mpr rfl
  rcases (h s₁ tid u hd hrun).mpr hdangles with ⟨e, t, herr⟩
  rw [herr] at hpassed
  cases hpassed

end DataCrystal
