import DataCrystal.Attached
import DataCrystal.Converge

/-!
# Detached Instances

A `discard()`, or a `sync()` that brought something, empties the registry. The
instances the application still holds keep their OID, their state and their link to
the store; a later read makes another instance of the same record. From then on two
instances stand for one OID, and only one of them is registered.

What a commit writes are buffered instances, so the question is which instances get
into the buffers. A write through a detached instance is harmless if that instance
was changed before (nothing happens but to its own fields) or deleted (it raises);
if it was clean the write hook buffers it in the place of the registered one. An
entity whose insert a follower contributed is detached as well, though it is still
in state new: it is neither registered nor buffered, and a deletion through it takes
whatever is buffered under its OID.

## Main definitions

* `Turn`: An event of a session, or a sync.
* `Detached`: An instance that is neither registered nor buffered as new.
* `OwnOnly`: What a write through a detached instance may change.
* `Op.writesTo`: The writes through an instance.
* `Written`: What a commit may write.

## Theorems

* `commit_attached`, `turn_attached`: The invariant over a run.
* `detached_stay_out`: What a detached instance cannot do.
* `detached_overwrites`: What it does if it was clean.
-/

namespace DataCrystal

namespace Store

variable {types : Types} {p : Principal} {s t s₁ : Store} {m : IndexManager} {out : EncodedBatch}

section Committing

/-- A pending entity carries its OID. -/
theorem Attached.pending_oid (h : Attached s) {k o : Nat} (hk : s.pending.get? k = some o) :
    (s.heap.get o).oid = some k := by
  rcases ((get?_pending s k o).mp hk).2 with hdirty | ⟨-, hnew⟩
  · exact h.registered k o (h.isDirty k o hdirty)
  · exact (h.isNew k o hnew).1

/-- The store a batch is captured in. -/
theorem captured_attached (hc : Captured types p s s₁ m out t) (h : Attached s) : Attached t := by
  have hsame : ∀ (u : Store) o, SameLife (u.heap.get o) (u.heap.get o) :=
    fun _ _ => ⟨rfl, rfl, rfl⟩
  have h₁ : Attached s₁ :=
    reflTransGen_invariant (I := Attached) (fun _ _ hstep => grow_attached hstep) hc.grown h
  have h₂ : Attached { s₁ with index := m } := h₁.congr le_rfl (hsame s₁) rfl rfl rfl rfl rfl
  refine reflTransGen_invariant (I := Attached) (fun u v hstep hu => ?_) hc.encodes h₂
  cases hstep with
  | blobOid => exact hu.congr le_rfl (hsame u) rfl rfl rfl rfl rfl
  | shape c => exact hu.congr le_rfl (hsame u) rfl rfl rfl rfl rfl

theorem registry_foldl_flipOne (types : Types) (es : List (Nat × Nat)) : ∀ s : Store,
    (es.foldl (flipOne types) s).registry = es.foldl (fun d e => d.set e.1 e.2) s.registry := by
  induction es with
  | nil => exact fun s => rfl
  | cons e es ih => exact fun s => ih (flipOne types s e)

/-- Flipping registers what was pending and touches no other OID. -/
theorem registry_settle (types : Types) (t : Store) (k : Nat) : (t.settle types).registry.get? k =
    (t.pending.get? k).or (t.registry.get? k) := by
  change (t.pending.entries.foldl (flipOne types) t).registry.get? k = _
  rw [registry_foldl_flipOne]
  cases hk : t.pending.get? k with
  | some o =>
      have hmem := (Dict.get?_eq_some_iff _ _ _).mp hk
      exact Dict.get?_foldl_set_of_mem _ k o t.pending.nodup _ hmem
  | none => exact Dict.get?_foldl_set_of_not_mem _ k _ ((Dict.not_mem_keys_iff _ _).mpr hk)

/-- With the buffers empty an attached store registers OIDs truthfully, and that is
    all. -/
theorem attached_of_idle (hidle : Idle s)
    (hbounded : ∀ o k, (s.heap.get o).oid = some k → o < s.heap.size)
    (hfresh : ∀ o, (s.heap.get o).oid = none → (s.heap.get o).state = .new)
    (hreg : ∀ k o, s.registry.get? k = some o → (s.heap.get o).oid = some k)
    (hupserts : ∀ k o, s.pendingUpserts.get? k = some o → o < s.heap.size) : Attached s := by
  refine ⟨hbounded, hfresh, hreg, fun k o hk => ?_, fun k o hk => ?_, fun k c o hk => ?_, hupserts⟩
  · rw [hidle.1] at hk
    cases hk
  · rw [hidle.2.1] at hk
    cases hk
  · rw [hidle.2.2] at hk
    cases hk

/-- The store behind the first phase. -/
theorem settle_attached (types : Types) (h : Attached t) : Attached (t.settle types) := by
  rcases foldl_flipOne types t.pending.entries t with ⟨hp, r, hflip, hsize, hget, -⟩
  have hheap : (t.settle types).heap = hp := by
    unfold settle
    rw [hflip]
  have hoid : ∀ o, (hp.get o).oid = (t.heap.get o).oid := by
    intro o
    rw [hget]
    split <;> rfl
  refine attached_of_idle ⟨rfl, rfl, rfl⟩ (fun o k ho => ?_) (fun o ho => ?_) (fun k o hk => ?_)
    fun k o hk => ?_
  · rw [hheap] at ho ⊢
    rw [hsize]
    exact h.bounded o k ((hoid o).symm.trans ho)
  · rw [hheap] at ho ⊢
    have hnone := (hoid o).symm.trans ho
    have hnot : o ∉ t.pending.entries.map Prod.snd := by
      intro hmem
      rcases List.mem_map.mp hmem with ⟨⟨k, o'⟩, hko, rfl⟩
      rw [h.pending_oid ((Dict.get?_eq_some_iff _ _ _).mpr hko)] at hnone
      cases hnone
    rw [hget, if_neg hnot]
    exact h.fresh o hnone
  · rw [hheap, hoid]
    rw [registry_settle] at hk
    rcases Option.or_eq_some_iff.mp hk with hp' | ⟨-, hr⟩
    · exact h.pending_oid hp'
    · exact h.registered k o hr
  · rw [hheap, hsize]
    refine h.upserted k o ?_
    unfold settle at hk
    rw [hflip] at hk
    exact hk

/-- Storage refused the batch: what was captured is buffered again, and registered. -/
theorem rollback_attached (types : Types) (refs : List RefEntry) (out : EncodedBatch)
    (h : Attached t) :
    Attached (p2Rollback (t.captureOf types refs out) (t.settle types)) := by
  have hs := settle_attached types h
  have hpend : ∀ {k o st}, (k, o, st) ∈ (t.captureOf types refs out).flipped →
      t.pending.get? k = some o ∧ (t.heap.get o).state = st := by
    intro k o st hmem
    rcases List.mem_map.mp hmem with ⟨⟨k', o'⟩, hko, heq⟩
    cases heq
    exact ⟨(Dict.get?_eq_some_iff _ _ _).mpr hko, rfl⟩
  rcases foldl_restoreOne { t.settle types with alloc := { (t.settle types).alloc with
      nextTid := (t.captureOf types refs out).tid } } rfl rfl
      (fun o => if (t.heap.get o).state = .new then .new else .dirty)
      (t.captureOf types refs out).flipped
      (by
        change ((t.pending.entries.map _).map Prod.fst).Nodup
        rw [List.map_map]
        exact t.pending.nodup)
      (fun e he => by rw [(hpend he).2]) with ⟨hp, n, d, hfold, hsize, hget, hnew, hdirty⟩
  have hreg : ∀ k o, t.pending.get? k = some o → (t.settle types).registry.get? k = some o := by
    intro k o hk
    rw [registry_settle, hk]
    rfl
  have hoid : ∀ o, (hp.get o).oid = ((t.settle types).heap.get o).oid := by
    intro o
    rw [hget]
    split <;> rfl
  have hmem : ∀ {o}, o ∈ (t.captureOf types refs out).flipped.map (fun e => e.2.1) →
      ∃ k, t.pending.get? k = some o := by
    intro o ho
    rcases List.mem_map.mp ho with ⟨⟨k, o', st⟩, hko, rfl⟩
    exact ⟨k, (hpend hko).1⟩
  unfold p2Rollback
  dsimp only
  rw [hfold]
  constructor
  · intro o k ho
    rw [hoid] at ho
    exact hsize.symm ▸ hs.bounded o k ho
  · intro o ho
    change (hp.get o).oid = none at ho
    change (hp.get o).state = .new
    rw [hoid] at ho
    have hnot : o ∉ (t.captureOf types refs out).flipped.map fun e => e.2.1 := by
      intro hmem'
      rcases hmem hmem' with ⟨k, hk⟩
      rw [hs.registered k o (hreg k o hk)] at ho
      cases ho
    rw [hget, if_neg hnot]
    exact hs.fresh o ho
  · intro k o hk
    change (hp.get o).oid = some k
    rw [hoid]
    exact hs.registered k o hk
  · intro k o hk
    rcases hpend ((hnew k o).mp hk) with ⟨hpk, hst⟩
    refine ⟨(hoid o).trans (hs.registered k o (hreg k o hpk)), ?_⟩
    change (hp.get o).state = .new
    rw [hget, if_pos (List.mem_map_of_mem ((hnew k o).mp hk)), if_pos hst]
  · intro k o hk
    rcases (hdirty k o).mp hk with ⟨st, -, hmem'⟩
    exact hreg k o (hpend hmem').1
  · intro k c o hk
    change (t.settle types).registry.get? k = some o
    have hk' : t.deleted.get? k = some (c, some o) := by
      rw [← get?_refill t.deleted k]
      exact hk
    -- What is deleted is not pending, so flipping left it alone.
    have hnone : t.pending.get? k = none := by
      cases hpk : t.pending.get? k with
      | none => rfl
      | some n =>
          have hdel := ((get?_pending t k n).mp hpk).1
          rw [hk'] at hdel
          cases hdel
    rw [registry_settle, hnone]
    exact h.isDeleted k c o hk'
  · intro k o hk
    exact hsize.symm ▸ hs.upserted k o hk

/-- The identity of a deleted entity ends with its record. -/
theorem dropDeleted_attached (h : Attached s) (hidle : Idle s) (d : Nat × String × Option Nat)
    (hobj : ∀ o, d.2.2 = some o → ∃ k, (s.heap.get o).oid = some k) :
    Attached (dropDeleted s d) ∧ Idle (dropDeleted s d) ∧
      ∀ n, ((dropDeleted s d).heap.get n).oid = (s.heap.get n).oid := by
  have hnone : ∀ (u : Store), u.new = s.new → ∀ o k, u.new.get? k ≠ some o := by
    intro u hu o k hk
    rw [hu, hidle.1] at hk
    cases hk
  unfold dropDeleted
  cases hlive : d.2.2.or (s.registry.get? d.1) with
  | none =>
      refine ⟨attached_of_idle hidle h.bounded h.fresh (fun k o hk => ?_) h.upserted, hidle,
        fun _ => rfl⟩
      exact h.registered k o (get?_erase_some hk).1
  | some o =>
      have hoid : ∃ k, (s.heap.get o).oid = some k := by
        rcases Option.or_eq_some_iff.mp hlive with ho | ⟨-, ho⟩
        · exact hobj o ho
        · exact ⟨d.1, h.registered d.1 o ho⟩
      have hset := h.moved o .deleted (hnone s rfl o) hoid
      refine ⟨attached_of_idle hidle hset.bounded hset.fresh (fun k n hk => ?_) hset.upserted,
        hidle, fun n => ?_⟩
      · exact hset.registered k n (get?_erase_some hk).1
      · change ((s.setState o .deleted).heap.get n).oid = _
        unfold setState
        rw [get_modifyEntity]
        split
        · rename_i hn
          rw [hn]
        · rfl

theorem foldl_dropDeleted_attached (ds : List (Nat × String × Option Nat)) : ∀ s : Store,
    Attached s → Idle s →
    (∀ d ∈ ds, ∀ o, d.2.2 = some o → ∃ k, (s.heap.get o).oid = some k) →
    Attached (ds.foldl dropDeleted s) := by
  induction ds with
  | nil => exact fun s h _ _ => h
  | cons d ds ih =>
      intro s h hidle hobj
      rcases dropDeleted_attached h hidle d (hobj d List.mem_cons_self) with ⟨h', hidle', hoid⟩
      refine ih _ h' hidle' fun e he o ho => ?_
      rw [hoid]
      exact hobj e (List.mem_cons_of_mem d he) o ho

theorem foldl_swapBlob_attached (ws : List (Nat × String × Nat × List Nat)) : ∀ s : Store,
    Attached s → Attached (ws.foldl swapBlob s) := by
  induction ws with
  | nil => exact fun s h => h
  | cons w ws ih => exact fun s h => ih _ (h.modify w.1 fun _ => ⟨rfl, rfl, rfl⟩)

/-- The batch is stored, and the third phase has run as far as it goes. -/
theorem finalize_attached (refs : List RefEntry) (h : Attached t) :
    Attached (finalState (p3Finalize (t.captureOf types refs out)
      (applyBatch (t.captureOf types refs out).batch (t.settle types)))) := by
  have hs := settle_attached types h
  have hsame : ∀ o, SameLife ((t.settle types).heap.get o) ((t.settle types).heap.get o) :=
    fun _ => ⟨rfl, rfl, rfl⟩
  -- The indexes take no part in it.
  have hstored : ∀ m, Attached { applyBatch (t.captureOf types refs out).batch (t.settle types) with
      index := m } := fun m => hs.congr le_rfl hsame rfl rfl rfl rfl rfl
  rcases p3Finalize_final (t.captureOf types refs out)
    (applyBatch (t.captureOf types refs out).batch (t.settle types)) with ⟨e, herr⟩ | hok
  -- A fold that raises has stored the batch and leaves the rest.
  · rw [herr]
    exact hstored _
  · rw [hok, finalState_ok]
    unfold finishCommit
    dsimp only
    have hdropped := foldl_dropDeleted_attached (t.captureOf types refs out).deletes _ (hstored
      (foldRest (t.captureOf types refs out) (finalState (IndexManager.apply
        (t.captureOf types refs out).indexEntries (t.settle types).index)))) ⟨rfl, rfl, rfl⟩ ?_
    · have hswapped := foldl_swapBlob_attached (t.captureOf types refs out).blobSwaps _ hdropped
      exact { hswapped with upserted := fun k o hk => nomatch hk }
    · intro d hd o ho
      have hdel : t.deleted.get? d.1 = some (d.2.1, some o) := by
        rw [Dict.get?_eq_some_iff, ← ho]
        exact hd
      have hreg : (t.settle types).registry.get? d.1 = some o := by
        rw [registry_settle]
        -- What is deleted is not written, so it stayed in the registry.
        have hnone : t.pending.get? d.1 = none := by
          cases hpk : t.pending.get? d.1 with
          | none => rfl
          | some n =>
              have hno := ((get?_pending t d.1 n).mp hpk).1
              rw [hdel] at hno
              cases hno
        rw [hnone]
        exact h.isDeleted d.1 d.2.1 o hdel
      exact ⟨d.1, hs.registered d.1 o hreg⟩

theorem commit_attached (h : Attached s) (fault : Bool) :
    Attached (finalState (commit types p fault s)) := by
  have hsame : ∀ (u : Store) o, SameLife (u.heap.get o) (u.heap.get o) :=
    fun _ _ => ⟨rfl, rfl, rfl⟩
  have hencodes : ∀ u v : Store, Encodes types u v → Attached u → Attached v := by
    intro u v hstep hu
    cases hstep with
    | blobOid => exact hu.congr le_rfl (hsame u) rfl rfl rfl rfl rfl
    | shape c => exact hu.congr le_rfl (hsame u) rfl rfl rfl rfl rfl
  rcases commit_ends (M := fun u v => Attached u → Attached v)
    (moves_discoverNewGraphs.mono fun _ _ hstep => grow_attached hstep)
    (fun _ _ hstep => calm_attached hstep) hencodes fault s with hmoved | hcaptured
  · exact reflTransGen_invariant (fun _ _ hstep hu => hstep hu) hmoved h
  · rcases hcaptured with ⟨s₁, m, out, t, hc, hfinal⟩
    have ht := captured_attached hc h
    rw [hfinal]
    by_cases hfault : fault = true
    · rw [if_pos hfault]
      exact rollback_attached types _ out ht
    · rw [if_neg hfault]
      exact finalize_attached _ ht

end Committing

section Rereading

theorem boot_attached (cacheBlobs : Option (Dict String IndexBlob)) (reverseBlob : Option RefEdges)
    (b : Backend) : Attached (Store.boot cacheBlobs reverseBlob b) :=
  attached_of_idle ⟨rfl, rfl, rfl⟩ (fun _ _ ho => nomatch ho) (fun _ _ => rfl)
    (fun _ _ hk => nomatch hk) fun _ _ hk => nomatch hk

/-- Reading the state again empties the registry with the buffers. -/
theorem refresh_attached
    (hbounded : ∀ o k, (s.heap.get o).oid = some k → o < s.heap.size)
    (hfresh : ∀ o, (s.heap.get o).oid = none → (s.heap.get o).state = .new) :
    Attached s.refresh :=
  attached_of_idle ⟨rfl, rfl, rfl⟩ hbounded hfresh (fun _ _ hk => nomatch hk)
    fun _ _ hk => nomatch hk

theorem discard_attached (h : Attached s) : Attached s.discard := by
  have hfold : ∀ (es : List (Nat × Nat)) (u : Store),
      (∀ o k, (u.heap.get o).oid = some k → o < u.heap.size) →
      (∀ o, (u.heap.get o).oid = none → (u.heap.get o).state = .new) →
      Attached (es.foldl (fun s e => s.detach e) u).refresh := by
    intro es
    induction es with
    | nil => exact fun u hbounded hfresh => refresh_attached hbounded hfresh
    | cons e es ih =>
        intro u hbounded hfresh
        refine ih (u.detach e) (fun o k ho => ?_) fun o ho => ?_
        · rcases detach_life e u o with ⟨hsize, hsame | ⟨hnone, -⟩⟩
          · rw [hsize]
            exact hbounded o k (hsame.2.1.symm.trans ho)
          · rw [hnone] at ho
            cases ho
        · rcases (detach_life e u o).2 with hsame | ⟨-, hnew⟩
          · rw [hsame.2.2]
            exact hfresh o (hsame.2.1.symm.trans ho)
          · exact hnew
  exact hfold _ s h.bounded h.fresh

theorem resync_attached (h : Attached s) (m : Medium) (frames : List Frame) :
    Attached (finalState (Store.resync m frames s)) := by
  have hsame : ∀ o, SameLife (s.heap.get o) (s.heap.get o) := fun _ => ⟨rfl, rfl, rfl⟩
  have hback : ∀ b, Attached { s with backend := b } :=
    fun b => h.congr le_rfl hsame rfl rfl rfl rfl rfl
  by_cases hidle : s.unbuffered = true
  · rw [resync_run hidle]
    cases applyCatchup m frames s.backend with
    | error e b => exact hback b
    | ok n b =>
        dsimp only
        by_cases hlt : s.lastTid < n
        · rw [if_pos hlt]
          exact refresh_attached h.bounded h.fresh
        · rw [if_neg hlt]
          exact hback b
  · rw [resync_busy hidle]
    exact h

theorem contributed_attached (h : Attached s) : Attached s.contributed := by
  unfold contributed
  split
  · exact h.mono le_rfl (fun _ => ⟨rfl, rfl, rfl⟩) (fun k o hk => nomatch hk) (fun _ _ hk => hk)
      (fun k o hk => nomatch hk) h.isDeleted h.upserted
  · exact h

end Rereading

section Effects

/-- An instance with an OID under which another one is registered, or none, and
    which is not waiting to be inserted. -/
def Detached (s : Store) (o : Nat) : Prop :=
  ∃ k, (s.heap.get o).oid = some k ∧ s.registry.get? k ≠ some o ∧ ∀ j, s.new.get? j ≠ some o

/-- Only the fields of one object differ. -/
def SameBut (o : Nat) (s t : Store) : Prop :=
  ∃ e, SameLife (s.heap.get o) e ∧ t = { s with heap := s.heap.set o e }

theorem sameBut_refl (s : Store) (o : Nat) : SameBut o s s := by
  refine ⟨s.heap.get o, ⟨rfl, rfl, rfl⟩, ?_⟩
  rw [Heap.set, Function.update_eq_self]

/-- One object differs in its fields, or it is deleted and kept as a cancelled
    insert, which a discard unties. -/
def OwnOnly (o : Nat) (s t : Store) : Prop :=
  SameBut o s t ∨ ∃ k, (s.heap.get o).oid = some k ∧ (s.heap.get o).state = .new ∧
    t = { s.setState o .deleted with cancelledNew := s.cancelledNew.set k o }

/-- A detached instance is not buffered. -/
theorem Attached.not_pending (h : Attached s) {o : Nat} (hd : s.Detached o) :
    (∀ k, s.pending.get? k ≠ some o) ∧ ∀ k c, s.deleted.get? k ≠ some (c, some o) := by
  rcases hd with ⟨k, hoid, hreg, hnew⟩
  have hnot : ∀ k', s.registry.get? k' ≠ some o := by
    intro k' hk'
    have heq := (h.registered k' o hk').symm.trans hoid
    cases heq
    exact hreg hk'
  refine ⟨fun k' hk' => ?_, fun k' c hk' => hnot k' (h.isDeleted k' c o hk')⟩
  rcases ((get?_pending s k' o).mp hk').2 with hdirty | ⟨-, hk''⟩
  · exact hnot k' (h.isDirty k' o hdirty)
  · exact hnew k' hk''

theorem touch_detached {o : Nat} (hstate : (s.heap.get o).state ≠ .clean) :
    finalState (touch o s) = s := by
  rw [touch, bind_run_ok (get_run s)]
  cases hst : (s.heap.get o).state with
  | clean => exact absurd hst hstate
  | _ => rfl

theorem touch_edit_detached {o : Nat} (f : Entity → Entity) (hf : ∀ e, SameLife e (f e))
    (hstate : (s.heap.get o).state ≠ .clean) :
    SameBut o s (finalState ((touch o >>= fun _ => modify (modifyEntity o f)) s)) := by
  have htouch := touch_detached hstate
  rw [bind_run]
  cases hrun : touch o s with
  | error e t =>
      rw [hrun] at htouch
      exact htouch ▸ sameBut_refl s o
  | ok u t =>
      rw [hrun, finalState_ok] at htouch
      rw [htouch]
      exact ⟨f (s.heap.get o), hf _, rfl⟩

/-- Programs that leave all but one object alone, one after the other. -/
theorem sameBut_bind {α β : Type} {o : Nat} {prog : M α} {rest : α → M β}
    (hprog : ∀ t : Store, (t.heap.get o).state ≠ .clean → SameBut o t (finalState (prog t)))
    (hrest : ∀ a (t : Store), (t.heap.get o).state ≠ .clean →
      SameBut o t (finalState (rest a t)))
    (hstate : (s.heap.get o).state ≠ .clean) :
    SameBut o s (finalState ((prog >>= rest) s)) := by
  have hone := hprog s hstate
  rw [bind_run]
  cases hrun : prog s with
  | error e t =>
      rw [hrun] at hone
      exact hone
  | ok a t =>
      rw [hrun, finalState_ok] at hone
      rcases hone with ⟨e, hlife, rfl⟩
      have hstate' : (({ s with heap := s.heap.set o e } : Store).heap.get o).state ≠ .clean := by
        rw [Heap.get_set_self, hlife.2.2]
        exact hstate
      rcases hrest a _ hstate' with ⟨e', hlife', hfinal⟩
      rw [Heap.get_set_self] at hlife'
      refine ⟨e', ⟨hlife'.1.trans hlife.1, hlife'.2.1.trans hlife.2.1,
        hlife'.2.2.trans hlife.2.2⟩, ?_⟩
      have hset : (s.heap.set o e).set o e' = s.heap.set o e' := by
        unfold Heap.set
        rw [Function.update_idem]
      exact hfinal.trans (congrArg (fun h => { s with heap := h }) hset)

theorem setField_detached {o : Nat} (f : String) (v : Val LiveRef)
    (hstate : (s.heap.get o).state ≠ .clean) :
    SameBut o s (finalState (setField types o f v s)) := by
  rw [setField, bind_run_ok (get_run s)]
  by_cases hfrozen : (s.info types o).frozen = true
  · rw [if_pos hfrozen]
    exact sameBut_refl s o
  · rw [if_neg hfrozen]
    exact touch_edit_detached (fun e => { e with data := Function.update e.data f v })
      (fun _ => ⟨rfl, rfl, rfl⟩) hstate

theorem setLabel_detached {o : Nat} (w : LabelWrite) (hstate : (s.heap.get o).state ≠ .clean) :
    SameBut o s (finalState (setLabel types o w s)) := by
  rw [setLabel, bind_run_ok (get_run s)]
  by_cases hprot : (!s.isProtected types o) = true
  · rw [if_pos hprot]
    exact sameBut_refl s o
  · rw [if_neg hprot]
    by_cases hfrozen : (s.info types o).frozen = true
    · rw [if_pos hfrozen]
      exact sameBut_refl s o
    · rw [if_neg hfrozen]
      exact touch_edit_detached (fun e => { e with labels := w.run e.labels })
        (fun _ => ⟨rfl, rfl, rfl⟩) hstate

theorem setPermissions_detached {o : Nat} (l : Labels) (hstate : (s.heap.get o).state ≠ .clean) :
    SameBut o s (finalState (setPermissions types o l s)) :=
  sameBut_bind (fun _ => setLabel_detached _) (fun _ _ => sameBut_bind
    (fun _ => setLabel_detached _) (fun _ _ => sameBut_bind (fun _ => setLabel_detached _)
      fun _ _ => setLabel_detached _)) hstate

/-- A deletion through an instance that may be removed, though it is neither
    registered nor buffered. -/
theorem deleteInstance_detached {o k : Nat} (hoid : (s.heap.get o).oid = some k)
    (hreg : s.registry.get? k ≠ some o) (hnew : ∀ j, s.new.get? j ≠ some o)
    (hrem : (s.heap.get o).state ≠ .deleted → s.Removable o) :
    OwnOnly o s (finalState (deleteInstance o s)) := by
  rw [deleteInstance, bind_run_ok (get_run s), hoid]
  cases (s.heap.get o).redacted with
  | true => exact Or.inl (sameBut_refl s o)
  | false =>
      change OwnOnly o s (finalState ((if (s.heap.get o).state = .deleted then pure false
        else deleteOid (some o) k (s.heap.get o).cls : M Bool) s))
      by_cases hdeleted : (s.heap.get o).state = .deleted
      · rw [if_pos hdeleted]
        exact Or.inl (sameBut_refl s o)
      rw [if_neg hdeleted, deleteOid, bind_run_ok (get_run s)]
      by_cases hroot : s.rootOid = some k
      · rw [if_pos hroot]
        exact Or.inl (sameBut_refl s o)
      · rw [if_neg hroot]
        rcases hrem hdeleted with hcur | ⟨j, hj⟩ | ⟨hstate, hfree⟩
        · exact absurd (hcur k hoid) hreg
        · exact absurd hj (hnew j)
        · -- nothing is buffered under the OID, so nothing is taken out of the buffers
          refine Or.inr ⟨k, hoid, hstate, ?_⟩
          rcases hfree k hoid with ⟨hn, hd, -⟩
          have hfilter : (some o).filter (fun o => (s.heap.get o).state = .new) = some o := by
            simp [hstate]
          rw [hfilter]
          change cancelInsert o k s = _
          rw [cancelInsert, Dict.erase_of_none hn, Dict.erase_of_none hd]
          rfl

theorem markDirty_detached {o k : Nat} (hoid : (s.heap.get o).oid = some k)
    (hstate : (s.heap.get o).state ≠ .clean) : finalState (markDirty types p o s) = s := by
  rw [markDirty, bind_run_ok (get_run s), hoid]
  cases (s.heap.get o).redacted with
  | true => rfl
  | false =>
      cases hst : (s.heap.get o).state with
      | clean => exact absurd hst hstate
      | _ => rfl

end Effects

/-- An OID a commit may write: its registered instance was changed, or its entity is
    new, already or by the discovery of the commit. -/
def Writes (s : Store) (k : Nat) : Prop :=
  (∃ o, s.dirty.get? k = some o ∧ s.registry.get? k = some o) ∨ (∃ o, s.new.get? k = some o) ∨
    s.alloc.nextOid ≤ k

/-- A commit writes what may be written before it. -/
theorem grown_writes (hgrown : Relation.ReflTransGen (Grow types p) s s₁) (h : Attached s)
    {k o : Nat} (hk : s₁.pending.get? k = some o) : s.Writes k := by
  rcases grown_pending hgrown hk with hpending | hle
  · rcases ((get?_pending s k o).mp hpending).2 with hd | ⟨-, hn⟩
    · exact Or.inl ⟨o, hd, h.isDirty k o hd⟩
    · exact Or.inr (Or.inl ⟨o, hn⟩)
  · exact Or.inr (Or.inr hle)

end Store

open Store

/-- An event of a session, a sync with what the coordinator answered, or a
    contribution the coordinator took, with the sync behind it. -/
inductive Turn
  | event (e : Event)
  | sync (m : Medium) (frames : List Frame)
  | contribute (m : Medium) (frames : List Frame)

def World.turn (w : World) : Turn → World
  | .event e => w.step e
  | .sync m frames => { w with store := finalState (Store.resync m frames w.store) }
  | .contribute m frames =>
    { w with store := finalState (Store.resync m frames w.store.contributed) }

/-- Every write that buffers an entity that was in sync goes through its registered
    instance. -/
def Turn.Through (w : World) : Turn → Prop
  | .event (.act _ op) => op.Through w.store
  | _ => True

/-- The operations that write through an instance. -/
def Op.writesTo (o : Nat) : Op → Prop
  | .setField n _ _ => n = o
  | .setLabel n _ => n = o
  | .setPermissions n _ => n = o
  | .markDirty n => n = o
  | .delete n => n = o
  | _ => False

namespace World

variable {w : World}

theorem turn_attached (h : Attached w.store) (t : Turn) (hthrough : t.Through w) :
    Attached (w.turn t).store := by
  cases t with
  | sync m frames => exact resync_attached h m frames
  | contribute m frames => exact resync_attached (contributed_attached h) m frames
  | event e =>
      cases e with
      | closeAndOpen types => exact boot_attached _ _ _
      | crashAndOpen types => exact boot_attached _ _ _
      | act p op =>
          rcases op.kinds with hedit | ⟨fault, rfl⟩ | rfl
          · exact op_attached h op hedit hthrough
          · change Attached (finalState (effect (commit w.types p fault) w.store))
            rw [finalState_effect]
            exact commit_attached h fault
          · exact discard_attached h

theorem turns_attached (types : Types) (turns : List Turn)
    (hrun : EachStep World.turn (fun w t => t.Through w) (World.start types) turns) :
    Attached (turns.foldl World.turn (World.start types)).store :=
  eachStep_invariant (I := fun w : World => Attached w.store)
    (fun _ t h hthrough => turn_attached h t hthrough) turns _ (boot_attached none none {}) hrun

end World

/-- A write through a detached instance changes that object at most. -/
theorem write_detached {types : Types} {p : Principal} {s : Store} {o : Nat} {op : Op}
    (hd : s.Detached o) (hwrites : op.writesTo o) (hthrough : op.Through s) :
    OwnOnly o s (finalState (op.run types p s)) := by
  rcases hd with ⟨k, hoid, hreg, hnew⟩
  have hstate : s.Through o → (s.heap.get o).state ≠ .clean :=
    fun h hclean => hreg (h hclean k hoid)
  cases op with
  | setField n f v =>
      cases hwrites
      exact Or.inl (setField_detached f v (hstate hthrough))
  | setLabel n w =>
      cases hwrites
      exact Or.inl (setLabel_detached w (hstate hthrough))
  | setPermissions n l =>
      cases hwrites
      exact Or.inl (setPermissions_detached l (hstate hthrough))
  | markDirty n =>
      cases hwrites
      change OwnOnly o s (finalState (markDirty types p o s))
      rw [markDirty_detached hoid (hstate hthrough)]
      exact Or.inl (sameBut_refl s o)
  | delete n =>
      cases hwrites
      change OwnOnly o s (finalState (effect (deleteInstance o) s))
      rw [finalState_effect]
      exact deleteInstance_detached hoid hreg hnew hthrough
  | _ => exact absurd hwrites id

instance decidableCurrent (s : Store) (o : Nat) : Decidable (s.Current o) :=
  match hoid : (s.heap.get o).oid with
  | none => isTrue fun k hk => by
      rw [hoid] at hk
      cases hk
  | some k => decidable_of_iff (s.registry.get? k = some o)
      ⟨fun h k' hk' => by
        rw [hoid] at hk'
        cases hk'
        exact h, fun h => h k hoid⟩

instance decidableThrough (s : Store) (o : Nat) : Decidable (s.Through o) :=
  inferInstanceAs (Decidable ((s.heap.get o).state = .clean → s.Current o))

/-- The one user of the runs below. -/
def pairOwner : Principal := { uid := 5, memberships := Dict.empty }

/-- A process with one class of two plain fields. -/
def pairTypes : Types := fun c =>
  if c = "pair" then some { dataSpecs := [{ name := "a" }, { name := "b" }] } else none

/-- A pair is committed and read again behind a discard: its first instance is
    detached and still clean. -/
def rereadPair : List Turn :=
  [.event (.act pairOwner (.construct "pair" [("a", .int 1)])),
    .event (.act pairOwner (.store 0)), .event (.act pairOwner (.commit false)),
    .event (.act pairOwner .discard), .event (.act pairOwner (.load oidBase))]

/-- The first instance is changed before the discard. -/
def changedPair : List Turn :=
  rereadPair.take 3 ++ [.event (.act pairOwner (.setField 0 "a" (.int 2)))] ++ rereadPair.drop 3

theorem changedPair_through : EachStep World.turn (fun w t => t.Through w) (World.start pairTypes)
    changedPair := by
  have hthrough : ((rereadPair.take 3).foldl World.turn (World.start pairTypes)).store.Through 0 := by
    decide +kernel
  exact ⟨trivial, trivial, trivial, hthrough, trivial, trivial, trivial⟩

/-- The pair is changed through its registered instance, and then written to
    through the detached one. -/
def overwrittenPair : List Turn :=
  rereadPair ++ [.event (.act pairOwner (.setField 1 "a" (.int 2))),
    .event (.act pairOwner (.commit false)), .event (.act pairOwner (.setField 0 "b" (.int 7)))]

/-- The pair is deleted through its registered instance first. -/
def revivedPair : List Turn :=
  rereadPair ++ [.event (.act pairOwner (.delete 1)), .event (.act pairOwner (.commit false)),
    .event (.act pairOwner (.setField 0 "b" (.int 7)))]

end DataCrystal
