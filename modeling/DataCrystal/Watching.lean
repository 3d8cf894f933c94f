import DataCrystal.Delta
import DataCrystal.Invariance

/-!
# Watched Commits

A commit of a watched store goes through the phases of an unwatched one. It may
be refused for one more reason, a prior that is not there, and it hands on a
delta when it has gone through. To the store itself it is a commit, so whatever
holds of the ways a commit can end holds of watched ones.

## Main definitions

* `Watched.begin`: A new directory, with a consumer attached or without.

## Theorems

* `p1Watched_ok`: What a first phase that captured a batch has done.
* `commitWatched_cases`: The ways a watched commit ends.
* `step_world`: The world of a watched store takes the steps of a world.
* `run_coherent`: Every world of a watched run is coherent.
-/

namespace DataCrystal

namespace Store

variable {types : Types} {p : Principal} {s t : Store}

/-- What a watched first phase that returned has done. -/
theorem p1Watched_ok {r : Option (Capture × Delta)} {u : Store}
    (h : p1Watched types p s = .ok r u) :
    (r = none ∧ discoverNewGraphs types p s = .ok () u) ∨
      ∃ s₁ m out t priors, Captured types p s s₁ m out t ∧ t.readDeltaPriors = .ok priors ∧
        r = some (captured types s₁ t out, t.deltaOf p out priors) ∧ u = t.settle types := by
  rcases bind_ok_iff.mp h with ⟨_, s₁, hdiscover, h⟩
  rw [bind_run_ok (get_run s₁)] at h
  split at h
  · cases h
    exact Or.inl ⟨rfl, hdiscover⟩
  · rename_i hbusy
    rcases bind_ok_iff.mp h with ⟨_, s₂, hvalid, h⟩
    rcases validateBeforeTid_ok hvalid with ⟨m, firsts, rfl, hunique, htemporal, hgate⟩
    rcases bind_ok_iff.mp h with ⟨out, t, hencode, h⟩
    rw [bind_run_ok (get_run t)] at h
    rcases bind_ok_iff.mp h with ⟨priors, t', hpriors, h⟩
    rcases ofExcept_ok_iff.mp hpriors with ⟨hread, rfl⟩
    rw [bind_run_ok (modify_run _ _)] at h
    cases h
    exact Or.inr ⟨s₁, m, out, _, priors, ⟨hdiscover, by simpa using hbusy, hunique,
      ⟨firsts, htemporal⟩, hgate, hencode⟩, hread, rfl, rfl⟩

/-- The steps of a watched first phase, up to the one that empties the buffers. -/
theorem p1Watched_error {e : Err} {u : Store} (h : p1Watched types p s = .error e u) :
    Relation.ReflTransGen (Prepares types p) s u := by
  have hgrow : Moves (Prepares types p) (discoverNewGraphs types p) :=
    moves_discoverNewGraphs.mono fun _ _ hg => Or.inl (.grow hg)
  have hvalid : Moves (Prepares types p) (validateBeforeTid types p) :=
    moves_validateBeforeTid.mono fun _ _ hq => Or.inl (edit_of_calm hq)
  have hencode : ∀ entries, Moves (Prepares types p) (encodePending types entries) :=
    fun entries => (moves_encodePending entries).mono fun _ _ he => Or.inr he
  unfold p1Watched at h
  cases hd : discoverNewGraphs types p s with
  | error e' s₁ =>
      rw [bind_run_error hd] at h
      cases h
      exact (hgrow s).of_error hd
  | ok _ s₁ =>
      rw [bind_run_ok hd, bind_run_ok (get_run s₁)] at h
      refine ((hgrow s).of_ok hd).trans ?_
      split at h
      · cases h
      · cases hv : validateBeforeTid types p s₁ with
        | error e' s₂ =>
            rw [bind_run_error hv] at h
            cases h
            exact (hvalid s₁).of_error hv
        | ok _ s₂ =>
            rw [bind_run_ok hv] at h
            refine ((hvalid s₁).of_ok hv).trans ?_
            cases hc : encodePending types s₁.pending.entries s₂ with
            | error e' t =>
                rw [bind_run_error hc] at h
                cases h
                exact (hencode _ s₂).of_error hc
            | ok out t =>
                rw [bind_run_ok hc, bind_run_ok (get_run t)] at h
                refine ((hencode _ s₂).of_ok hc).trans ?_
                -- Reading the priors changes nothing, and nothing raises behind it.
                cases hp : t.readDeltaPriors with
                | error e' =>
                    have hraise : (ofExcept (ε := Err) (σ := Store) t.readDeltaPriors) t =
                        .error e' t := by rw [hp]; rfl
                    rw [bind_run_error hraise] at h
                    cases h
                    exact .refl
                | ok priors =>
                    rw [bind_run_ok (ofExcept_run_ok hp t), bind_run_ok (modify_run _ t)] at h
                    cases h

/-- A watched commit ends before its batch is captured, with the batch refused,
    or with the batch stored; only then there may be a delta. -/
theorem commitWatched_cases (types : Types) (p : Principal) (fault : Bool) (s : Store) :
    (Relation.ReflTransGen (Prepares types p) s (finalState (commitWatched types p fault s)) ∧
      ∀ r u, commitWatched types p fault s ≠ .ok (some r) u) ∨
      ∃ s₁ m out t priors, Captured types p s s₁ m out t ∧ t.readDeltaPriors = .ok priors ∧
        commitWatched types p fault s =
          if fault then .error .backend (p2Rollback (captured types s₁ t out) (t.settle types))
          else (p3Finalize (captured types s₁ t out) >>= fun tid =>
              pure (some (tid, t.deltaOf p out priors)))
            (applyBatch (captured types s₁ t out).batch (t.settle types)) := by
  unfold commitWatched
  cases hp1 : p1Watched types p s with
  | error e u =>
      rw [bind_run_error hp1]
      exact Or.inl ⟨p1Watched_error hp1, fun r u h => nomatch h⟩
  | ok r u =>
      rw [bind_run_ok hp1]
      rcases p1Watched_ok hp1 with ⟨rfl, hd⟩ | ⟨s₁, m, out, t, priors, hcap, hpriors, rfl, rfl⟩
      · refine Or.inl ⟨?_, fun r u h => nomatch h⟩
        refine Relation.ReflTransGen.mono (fun _ _ hg => Or.inl (.grow hg)) _ _ ?_
        exact (moves_discoverNewGraphs s).of_ok hd
      · refine Or.inr ⟨s₁, m, out, t, priors, hcap, hpriors, ?_⟩
        cases fault with
        | true => rfl
        | false => rfl

/-- To the store a watched commit is a commit. -/
theorem commitWatched_ends (types : Types) (p : Principal) (fault : Bool) (s : Store) :
    Ends types p fault s (finalState (commitWatched types p fault s)) := by
  rcases commitWatched_cases types p fault s with ⟨hprep, -⟩ |
    ⟨s₁, m, out, t, priors, hcap, -, hrun⟩
  · exact Or.inl hprep
  · refine Or.inr ⟨s₁, m, out, t, hcap, ?_⟩
    rw [hrun]
    cases fault with
    | true => rfl
    | false =>
        simp only [Bool.false_eq_true, if_false]
        cases hp3 : p3Finalize (captured types s₁ t out)
            (applyBatch (captured types s₁ t out).batch (t.settle types)) with
        | error e u => rw [bind_run_error hp3]; rfl
        | ok tid u => rw [bind_run_ok hp3]; rfl

end Store

/-- A world whose store has ended a commit. -/
theorem World.coherent_of_ends {w : World} {kind : Nat → String} {p : Principal} {fault : Bool}
    {u : Store} (h : w.Coherent kind) (hends : Store.Ends w.types p fault w.store u) :
    ∃ kind', ({ w with store := u } : World).Coherent kind' := by
  rcases Store.ends_coherent h.store hends with ⟨kind', hu, hsame, hle⟩
  refine ⟨kind', hu, fun sc c blob hsc hblob f key k hk => ?_⟩
  have hknown := h.sidecar sc c blob hsc hblob f key k hk
  exact ⟨Nat.lt_of_lt_of_le hknown.1 hle, by rw [hsame k hknown.1]; exact hknown.2⟩

namespace Watched

variable {w : Watched}

/-- A new store directory, with a consumer attached or without one. -/
def begin (types : Types) (attached : Bool) : Watched :=
  { world := World.start types, attached := attached }

theorem world_deliver (d : Delta) (w : Watched) : (w.deliver d).world = w.world := by
  unfold deliver
  split <;> rfl

theorem stream_deliver (d : Delta) (w : Watched) : (w.deliver d).stream = w.stream ++ [d] := by
  unfold deliver
  split <;> rfl

/-- The store behind a watched commit. -/
theorem commit_ends (w : Watched) (p : Principal) (fault : Bool) : ∃ u,
    Store.Ends w.world.types p fault w.world.store u ∧
      (w.commit p fault).world = { w.world with store := u } := by
  unfold commit
  by_cases hatt : w.attached = true
  · rw [if_pos hatt]
    have hends := Store.commitWatched_ends w.world.types p fault w.world.store
    refine ⟨_, hends, ?_⟩
    split
    · rename_i tid delta s hrun
      rw [world_deliver, hrun]
      rfl
    · rfl
  · rw [if_neg hatt]
    refine ⟨_, Store.commit_cases w.world.types p fault w.world.store, ?_⟩
    have hstep : w.world.step (.act p (.commit fault)) =
        { w.world with store := finalState (Store.commit w.world.types p fault w.world.store) } := by
      rw [World.step, Op.run, Store.finalState_effect]
    exact hstep

/-- The world of a watched store commits, or takes the step of a world. -/
theorem step_world (w : Watched) (e : Event) :
    (∃ p fault, e = .act p (.commit fault) ∧ ∃ u,
      Store.Ends w.world.types p fault w.world.store u ∧
        (w.step e).world = { w.world with store := u }) ∨
      (∀ p fault, e ≠ .act p (.commit fault)) ∧ (w.step e).world = w.world.step e := by
  cases e with
  | act p op =>
      cases op with
      | commit fault => exact Or.inl ⟨p, fault, rfl, commit_ends w p fault⟩
      | _ => exact Or.inr ⟨fun _ _ h => (nomatch h), rfl⟩
  | closeAndOpen types => exact Or.inr ⟨fun _ _ h => (nomatch h), rfl⟩
  | crashAndOpen types => exact Or.inr ⟨fun _ _ h => (nomatch h), rfl⟩

/-- Every world of a watched run is coherent. -/
theorem run_coherent (types : Types) (attached : Bool) (events : List Event) :
    ∃ kind, ((begin types attached).run events).world.Coherent kind := by
  induction events using List.reverseRecOn with
  | nil => exact ⟨fun _ => "", World.start_coherent types _⟩
  | append_singleton events e ih =>
      rcases ih with ⟨kind, h⟩
      rw [run, List.foldl_append]
      change ∃ kind, (((begin types attached).run events).step e).world.Coherent kind
      rcases step_world ((begin types attached).run events) e with
        ⟨p, fault, -, u, hends, hworld⟩ | ⟨-, hworld⟩
      · rw [hworld]
        exact World.coherent_of_ends h hends
      · rcases World.step_coherent h e with ⟨kind', h', -⟩
        exact ⟨kind', by rw [hworld]; exact h'⟩

end Watched

end DataCrystal
