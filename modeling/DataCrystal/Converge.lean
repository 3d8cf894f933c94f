import DataCrystal.Replica

/-!
# Followers Converge

A follower that opens on an empty storage and syncs holds, after every sync,
what a consumer of the same deltas holds, however the stream was cut into
answers and however often a frame came twice. On a file an earlier session has
filled the follower opens only if the coordinator has nothing to serve: opening
replays from the first delta, and the file refuses the shapes it has.

## Main definitions

* `Session.From`, `Session.Fits`: What the sessions of a follower fetch.
* `Converged`: A follower that holds what a consumer of the stream holds.

## Theorems

* `resync_fits`: A sync brings a converged follower forward.
* `followers_converge`: When a follower opens and converges.
-/

namespace DataCrystal

open Store

variable {ds ds₁ : List Delta} {a aₙ : Applier} {b : Backend} {m : Medium} {frames : List Frame}

theorem reach_append (n : Nat) (fs gs : List Frame) :
    reach n (fs ++ gs) = reach (reach n fs) gs := List.foldl_append

theorem fits_append {fs gs : List Frame} : ∀ {n : Nat},
    Fits ds n (fs ++ gs) ↔ Fits ds n fs ∧ Fits ds (reach n fs) gs := by
  induction fs with
  | nil => exact fun {n} => (iff_of_eq (true_and _)).symm
  | cons f fs ih =>
      intro n
      rw [List.cons_append, Fits, Fits, ih, and_assoc]
      rfl

theorem reach_mono {n n' : Nat} (h : n ≤ n') (frames : List Frame) :
    reach n frames ≤ reach n' frames := by
  induction frames generalizing n n' with
  | nil => exact h
  | cons f frames ih =>
      cases f with
      | malformed => exact ih h
      | delta d refused => exact ih (max_le_max h le_rfl)

/-- What fits at a watermark fits at a later one. -/
theorem Fits.mono {n n' : Nat} (h : n ≤ n') {frames : List Frame} (hfits : Fits ds n frames) :
    Fits ds n' frames := by
  induction frames generalizing n n' with
  | nil => exact trivial
  | cons f frames ih =>
      refine ⟨?_, ih (reach_mono h [f]) hfits.2⟩
      cases f with
      | malformed => exact hfits.1
      | delta d refused =>
          refine ⟨hfits.1.1, ?_⟩
          rcases hfits.1.2 with hold | ⟨hnext, hstored⟩
          · exact Or.inl (hold.trans h)
          · by_cases hahead : d.tid ≤ n'
            · exact Or.inl hahead
            · exact Or.inr ⟨by omega, hstored⟩

/-- The sessions a follower had fetched frames of the stream, well or badly. -/
def Session.From (ds : List Delta) (se : Session) : Prop :=
  (∀ f ∈ se.bootstrap, f.From ds) ∧ ∀ frames ∈ se.syncs, ∀ f ∈ frames, f.From ds

/-- A session whose answers fit, on a storage at a watermark. -/
def Session.Fits (ds : List Delta) (n : Nat) (se : Session) : Prop :=
  DataCrystal.Fits ds 0 se.bootstrap ∧
    DataCrystal.Fits ds (DataCrystal.reach n se.bootstrap) se.syncs.flatten

/-- The watermark a session reaches. -/
def Session.reached (n : Nat) (se : Session) : Nat :=
  DataCrystal.reach n (se.bootstrap ++ se.syncs.flatten)

/-- The store has in memory what it reads from its storage, and hands out ids
    from the marks on. -/
structure Store.Reread (s : Store) : Prop where
  allocOid : s.backend.marks.nextOid ≤ s.alloc.nextOid
  allocCid : s.backend.marks.nextCid ≤ s.alloc.nextCid
  lastTid : s.lastTid = s.backend.marks.nextTid - 1
  rootOid : s.rootOid = s.backend.marks.rootOid
  typeRows : s.typeRows = s.backend.types

/-- A follower at a watermark that holds, on storage and in memory, what a
    consumer of the stream up to there holds. -/
def Converged (ds : List Delta) (n : Nat) (s : Store) : Prop :=
  s.lastTid = n ∧ s.Reread ∧ s.backend.Bounded ∧ (s.backend.types.map Prod.fst).Nodup ∧
    ∃ a, Applier.replay (ds.take n) {} = .ok () a ∧ a.watermark = n ∧ a.Mirrors s.backend

theorem Replica.take (hpre : ds₁ <+: ds) (h : Replica ds₁ a b) : ds.take a.watermark = ds₁ := by
  rw [h.served.watermark]
  exact (List.prefix_iff_eq_take.mp hpre).symm

theorem Replica.converged (hpre : ds₁ <+: ds) {s : Store} (h : Replica ds₁ a s.backend)
    (hs : s.Reread) : Converged ds a.watermark s := by
  refine ⟨?_, hs, h.bounded, h.distinct, a, ?_, rfl, h.mirrors⟩
  · rw [hs.lastTid, h.nextTid, Nat.add_sub_cancel]
  · rw [h.take hpre]
    exact h.served.replay

theorem boot_reread (b : Backend) : (Store.boot none none b).Reread :=
  ⟨le_rfl, le_rfl, rfl, rfl, rfl⟩

theorem refresh_reread (s : Store) : s.refresh.Reread := ⟨le_rfl, le_rfl, rfl, rfl, rfl⟩

/-- What a catch-up leaves is a replica. -/
theorem applyCatchup_final (hds : Applier.Served ds aₙ) (hfrom : ∀ f ∈ frames, f.From ds)
    (h : ReplicaIn ds b) : ReplicaIn ds (finalState (applyCatchup m frames b)) := by
  rcases h with ⟨ds₁, a, hpre, h⟩
  unfold applyCatchup
  rw [finalState_zoom]
  rcases catchUps_cases (m := m) hds frames hfrom (CatchUp.start_at hpre h) with
    ⟨ds₂, a₂, s', hrun, hat, -⟩ | ⟨e, ds₂, a₂, s₁, s', hrun, hat, hb, -⟩
  · rw [bind_run_ok hrun]
    exact ⟨ds₂, a₂, hat.before, hat.replica⟩
  · rw [bind_run_error hrun, finalState_error, hb]
    exact ⟨ds₂, a₂, hat.before, hat.replica⟩

/-- A catch-up that fits reaches its watermark. -/
theorem applyCatchup_fits (hds : Applier.Served ds aₙ) (hpre : ds₁ <+: ds) (h : Replica ds₁ a b)
    (hfits : Fits ds a.watermark frames) : ∃ ds₂ a₂ b₂,
      applyCatchup m frames b = .ok (reach a.watermark frames) b₂ ∧ ds₂ <+: ds ∧
        Replica ds₂ a₂ b₂ ∧ a₂.watermark = reach a.watermark frames ∧
        (a₂.watermark = a.watermark → b₂ = b) := by
  have hat := CatchUp.start_at hpre h
  have hwm : (CatchUp.start b).watermark = a.watermark := hat.watermark
  rcases catchUps_fit (m := m) hds frames hat (hwm ▸ hfits) with
    ⟨ds₂, a₂, s', hrun, hat₂, hreach, hsame⟩
  have hreached : a₂.watermark = reach a.watermark frames := by
    rw [← hat₂.watermark, hreach, hwm]
  refine ⟨ds₂, a₂, s'.backend, ?_, hat₂.before, hat₂.replica, hreached, fun heq => ?_⟩
  · unfold applyCatchup
    simp only [zoom, bind_run, hrun, get_run, pure_run]
    rw [hreach, hwm]
  · have hstay : s'.watermark = (CatchUp.start b).watermark := by
      rw [hat₂.watermark, heq, hwm]
    rw [hsame hstay]
    rfl

/-- A store with buffered writes does not sync. -/
theorem resync_busy {s : Store} (hs : ¬s.unbuffered = true) :
    Store.resync m frames s = .error .buffered s := by
  unfold resync
  rw [bind_run_ok (get_run s), Bool.eq_false_iff.mpr hs]
  rfl

/-- A sync of a store without buffered writes. -/
theorem resync_run {s : Store} (hs : s.unbuffered = true) : Store.resync m frames s =
    match applyCatchup m frames s.backend with
    | .ok n b =>
      if s.lastTid < n then .ok ({ s with backend := b } : Store).refresh.lastTid
        ({ s with backend := b } : Store).refresh
      else .ok s.lastTid { s with backend := b }
    | .error e b => .error (.replay e) { s with backend := b } := by
  unfold resync
  rw [bind_run_ok (get_run s), hs, Bool.not_true, if_neg Bool.false_ne_true]
  cases hrun : applyCatchup m frames s.backend with
  | error e b => simp only [bind_run, EStateM.adaptExcept, zoom, hrun]
  | ok n b =>
      simp only [bind_run, EStateM.adaptExcept, zoom, hrun]
      by_cases hlt : s.lastTid < n
      · rw [if_pos hlt, if_pos hlt]
        rfl
      · rw [if_neg hlt, if_neg hlt]
        rfl

theorem unbuffered_refresh (s : Store) : s.refresh.unbuffered = true := rfl

/-- A sync that fits returns the watermark it reaches. It has read the storage again,
    or there was nothing to apply and nothing has changed. -/
theorem resync_reaches (hds : Applier.Served ds aₙ) {s : Store} (hpre : ds₁ <+: ds)
    (h : Replica ds₁ a s.backend) (hlast : s.lastTid ≤ a.watermark) (hidle : s.unbuffered = true)
    (hfits : Fits ds a.watermark frames) : ∃ ds₂ a₂ t,
      Store.resync m frames s = .ok (reach a.watermark frames) t ∧ ds₂ <+: ds ∧
        Replica ds₂ a₂ t.backend ∧ a₂.watermark = reach a.watermark frames ∧
        (t = s ∧ s.lastTid = a.watermark ∧ reach a.watermark frames = a.watermark ∨
          s.lastTid < reach a.watermark frames ∧
            ∃ b, t = ({ s with backend := b } : Store).refresh) := by
  rcases applyCatchup_fits (m := m) hds hpre h hfits with
    ⟨ds₂, a₂, b₂, hrun, hpre₂, h₂, hreached, hsame⟩
  have hle := le_reach a.watermark frames
  rw [resync_run hidle, hrun]
  dsimp only
  by_cases hlt : s.lastTid < reach a.watermark frames
  · rw [if_pos hlt]
    refine ⟨ds₂, a₂, ({ s with backend := b₂ } : Store).refresh, ?_, hpre₂, h₂, hreached,
      Or.inr ⟨hlt, _, rfl⟩⟩
    have htid : ({ s with backend := b₂ } : Store).refresh.lastTid =
        reach a.watermark frames := by
      change b₂.marks.nextTid - 1 = _
      rw [h₂.nextTid, hreached, Nat.add_sub_cancel]
    rw [htid]
  · -- nothing was applied, and the storage is as it was
    have hstay : reach a.watermark frames = a.watermark := by omega
    have hnow : s.lastTid = a.watermark := by omega
    rw [if_neg hlt, hstay, ← hnow]
    have hb : b₂ = s.backend := hsame (hreached.trans hstay)
    subst hb
    exact ⟨ds₂, a₂, s, rfl, hpre₂, h₂, by rw [hreached, hstay, hnow],
      Or.inl ⟨rfl, rfl, rfl⟩⟩

/-- A sync that fits brings a follower to its watermark, also one whose memory
    is behind its storage. -/
theorem resync_fits (hds : Applier.Served ds aₙ) {s : Store} (hpre : ds₁ <+: ds)
    (h : Replica ds₁ a s.backend) (hlast : s.lastTid ≤ a.watermark)
    (hs : s.lastTid = a.watermark → s.Reread) (hidle : s.unbuffered = true)
    (hfits : Fits ds a.watermark frames) : ∃ ds₂ a₂ t,
      Store.resync m frames s = .ok (reach a.watermark frames) t ∧ ds₂ <+: ds ∧
        Replica ds₂ a₂ t.backend ∧ a₂.watermark = reach a.watermark frames ∧ t.Reread ∧
        t.unbuffered = true := by
  rcases resync_reaches (m := m) hds hpre h hlast hidle hfits with
    ⟨ds₂, a₂, t, hrun, hpre₂, h₂, hreached, ⟨rfl, hnow, -⟩ | ⟨-, b₂, rfl⟩⟩
  · exact ⟨ds₂, a₂, t, hrun, hpre₂, h₂, hreached, hs hnow, hidle⟩
  · exact ⟨ds₂, a₂, _, hrun, hpre₂, h₂, hreached, refresh_reread _, unbuffered_refresh _⟩

/-- The syncs of a session, one after the other. -/
theorem resyncs_fit (hds : Applier.Served ds aₙ) (syncs : List (List Frame)) :
    ∀ {s : Store} {ds₁ : List Delta} {a : Applier}, ds₁ <+: ds → Replica ds₁ a s.backend →
      s.Reread → s.unbuffered = true → Fits ds a.watermark syncs.flatten →
      ∃ t, syncs.foldlM (fun s frames =>
          match Store.resync m frames s with
          | .ok _ t => some t
          | .error _ _ => none) s = some t ∧
        Converged ds (reach a.watermark syncs.flatten) t := by
  induction syncs with
  | nil =>
      intro s ds₁ a hpre h hs _ _
      exact ⟨s, rfl, h.converged hpre hs⟩
  | cons frames syncs ih =>
      intro s ds₁ a hpre h hs hidle hfits
      rw [List.flatten_cons] at hfits ⊢
      rcases fits_append.mp hfits with ⟨hnow, hthen⟩
      have hlast : s.lastTid = a.watermark := by
        rw [hs.lastTid, h.nextTid, Nat.add_sub_cancel]
      rcases resync_fits (m := m) hds hpre h hlast.le (fun _ => hs) hidle hnow with
        ⟨ds₂, a₂, t, hrun, hpre₂, h₂, hreached, ht, hidle₂⟩
      rw [← hreached] at hthen
      rcases ih hpre₂ h₂ ht hidle₂ hthen with ⟨u, hrest, hconv⟩
      refine ⟨u, ?_, ?_⟩
      · rw [List.foldlM_cons, hrun]
        exact hrest
      · rw [reach_append, ← hreached]
        exact hconv

theorem bootstrap_start_at : (Bootstrap.mk {} {} {}).At ds [] :=
  ⟨List.nil_prefix, replica_empty, ⟨rfl, rfl, rfl⟩⟩

/-- A follower that opens on an empty storage reaches the watermark of its
    frames. -/
theorem open_fits (hds : Applier.Served ds aₙ) (hfits : Fits ds 0 frames) : ∃ ds₂ a₂ b₂,
    openFollower m frames {} = .ok (Store.boot none none b₂) b₂ ∧ ds₂ <+: ds ∧
      Replica ds₂ a₂ b₂ ∧ a₂.watermark = reach 0 frames := by
  rcases bootstraps_fit (m := m) hds frames bootstrap_start_at hfits with
    ⟨ds₂, s', hrun, hat, hreached⟩
  refine ⟨ds₂, s'.applier, s'.backend, ?_, hat.before, hat.replica, hreached⟩
  unfold openFollower bootstrapBackend
  simp only [bind_run, zoom, hrun, get_run, pure_run]

/-- A follower that opens on a file that is filled raises, unless it is served
    nothing. -/
theorem open_filled (hds : Applier.Served ds aₙ) (hfrom : ∀ f ∈ frames, f.From ds)
    (hpre : ds₁ <+: ds) (h : Replica ds₁ a b) (hfilled : ds₁ ≠ []) (hframes : frames ≠ []) :
    ∃ e, openFollower .sqlite frames b = .error e b := by
  cases frames with
  | nil => exact absurd rfl hframes
  | cons f frames =>
      rcases bootstrapOne_filled hds (hfrom f List.mem_cons_self) hpre h hfilled with
        ⟨e, s', hone, hb⟩
      refine ⟨e, ?_⟩
      unfold openFollower bootstrapBackend
      simp only [bind_run, zoom, forM_cons_run, hone, hb]

/-- What an opening follower leaves is a replica, on an empty storage or on a
    file. -/
theorem open_final (hds : Applier.Served ds aₙ) (hfrom : ∀ f ∈ frames, f.From ds)
    (h : ReplicaIn ds b) (hpath : m = .memory → b = {}) :
    ReplicaIn ds (finalState (openFollower m frames b)) := by
  rcases h with ⟨ds₁, a, hpre, h⟩
  have hfinal : finalState (openFollower m frames b) =
      (finalState (frames.forM (bootstrapOne m) { backend := b })).backend := by
    unfold openFollower bootstrapBackend
    cases hrun : frames.forM (bootstrapOne m) { backend := b } with
    | ok u s' => simp only [bind_run, zoom, hrun, get_run, pure_run, finalState_ok]
    | error e s' => simp only [bind_run, zoom, hrun, finalState_error]
  by_cases hfresh : ds₁ = []
  · have hb := h.pristine hfresh
    subst hb
    rw [hfinal]
    exact bootstraps_final hds frames hfrom bootstrap_start_at
  · cases m with
    | memory =>
        -- The memory of a follower starts empty.
        have hlen := h.served.watermark
        have htid := h.nextTid
        rw [hpath rfl] at htid
        change 1 = a.watermark + 1 at htid
        exact absurd (List.length_eq_zero_iff.mp (by omega)) hfresh
    | sqlite =>
        by_cases hframes : frames = []
        · rw [hframes]
          exact ⟨ds₁, a, hpre, h⟩
        · rcases open_filled hds hfrom hpre h hfresh hframes with ⟨e, herr⟩
          rw [herr]
          exact ⟨ds₁, a, hpre, h⟩

/-- A follower that opened has read its storage. -/
theorem open_ok {s : Store} {b' : Backend} (h : openFollower m frames b = .ok s b') :
    s = Store.boot none none b' := by
  unfold openFollower at h
  rcases bind_ok_iff.mp h with ⟨_, b₁, -, hread⟩
  rw [bind_run_ok (get_run b₁)] at hread
  cases hread
  rfl

/-- What a sync leaves is a replica. -/
theorem resync_replica (hds : Applier.Served ds aₙ) (hfrom : ∀ f ∈ frames, f.From ds) {s : Store}
    (h : ReplicaIn ds s.backend) :
    ReplicaIn ds (finalState (Store.resync m frames s)).backend := by
  by_cases hidle : s.unbuffered = true
  · have hfinal := applyCatchup_final (m := m) hds hfrom h
    rw [resync_run hidle]
    cases hrun : applyCatchup m frames s.backend with
    | error e b => rw [hrun] at hfinal; exact hfinal
    | ok n b =>
        rw [hrun] at hfinal
        dsimp only
        split <;> exact hfinal
  · rw [resync_busy hidle]
    exact h

theorem resyncs_replica (hds : Applier.Served ds aₙ) (syncs : List (List Frame)) :
    (∀ frames ∈ syncs, ∀ f ∈ frames, f.From ds) → ∀ {s : Store}, ReplicaIn ds s.backend →
      ReplicaIn ds (syncs.foldl (fun s frames => finalState (Store.resync m frames s)) s).backend := by
  induction syncs with
  | nil => exact fun _ s hs => hs
  | cons frames syncs ih =>
      intro hall s hs
      have hnow := resync_replica (m := m) hds (hall frames List.mem_cons_self) hs
      exact ih (fun fs hfs => hall fs (List.mem_cons_of_mem frames hfs)) hnow

/-- What a session leaves is a replica, on an empty storage or on a file. -/
theorem Session.leaves_replica (hds : Applier.Served ds aₙ) {se : Session} (hfrom : se.From ds)
    (h : ReplicaIn ds b) (hpath : m = .memory → b = {}) : ReplicaIn ds (se.leaves m b) := by
  have hopen := open_final hds hfrom.1 h hpath
  unfold leaves
  cases hrun : openFollower m se.bootstrap b with
  | error e b' =>
      rw [hrun] at hopen
      exact hopen
  | ok s b' =>
      rw [hrun] at hopen
      refine resyncs_replica hds se.syncs hfrom.2 ?_
      rw [open_ok hrun]
      exact hopen

/-- The storage of a path behind some sessions. -/
def pathAfter (m : Medium) (earlier : List Session) : Backend :=
  earlier.foldl (fun b se => se.leaves m b) {}

theorem pathAfter_replica (hds : Applier.Served ds aₙ) (earlier : List Session)
    (hearlier : ∀ se ∈ earlier, se.From ds) (hpath : m = .memory → earlier = []) :
    ReplicaIn ds (pathAfter m earlier) := by
  induction earlier using List.reverseRecOn with
  | nil => exact ⟨[], {}, List.nil_prefix, replica_empty⟩
  | append_singleton earlier se ih =>
      have hsqlite : m ≠ .memory := fun hm =>
        absurd (hpath hm) (List.append_ne_nil_of_right_ne_nil _ (List.cons_ne_nil se []))
      have hbefore := ih (fun e he => hearlier e (List.mem_append_left _ he))
        fun hm => absurd hm hsqlite
      unfold pathAfter
      rw [List.foldl_append]
      exact Session.leaves_replica hds (hearlier se (List.mem_append_right _ List.mem_cons_self))
        hbefore fun hm => absurd hm hsqlite

/-- A storage without a shape has applied nothing. -/
theorem Replica.types_eq_nil (h : Replica ds₁ a b) : b.types = [] ↔ ds₁ = [] := by
  constructor
  · intro hnone
    cases h.served.first with
    | inl hempty => exact hempty
    | inr hfirst =>
        rcases hfirst with ⟨d, hd, hshaped⟩
        rcases List.exists_mem_of_ne_nil _ hshaped with ⟨row, hrow⟩
        have hknown := (h.mirrors.types row.1 row.2).mp (h.served.shape_known hd hrow)
        rw [hnone] at hknown
        exact absurd hknown List.not_mem_nil
  · intro hempty
    rw [h.pristine hempty]

/-- A follower opens and converges if and only if its storage is empty or it is
    served nothing to open with. -/
theorem followers_converge (types : Types) (events : List Event) (m : Medium)
    (earlier : List Session) (hpath : m = .memory → earlier = [])
    (hearlier : ∀ e ∈ earlier, e.From ((Watched.begin types true).run events).accepted)
    (se : Session) (hfits : se.Fits ((Watched.begin types true).run events).accepted
      ((pathAfter m earlier).marks.nextTid - 1)) :
    (∃ s, se.follows m (pathAfter m earlier) = some s ∧
        Converged ((Watched.begin types true).run events).accepted
          (se.reached ((pathAfter m earlier).marks.nextTid - 1)) s) ↔
      (pathAfter m earlier).types = [] ∨ se.bootstrap = [] := by
  have hds := (Watched.run_served types events).served
  rcases pathAfter_replica hds earlier hearlier hpath with ⟨ds₁, a, hpre, h⟩
  have hwm : (pathAfter m earlier).marks.nextTid - 1 = a.watermark := by
    rw [h.nextTid, Nat.add_sub_cancel]
  rw [hwm] at hfits ⊢
  rw [h.types_eq_nil]
  constructor
  -- A follower that stands somewhere and bootstraps anew finds types it has: it does not open. Only
  -- storage on disk can stand anywhere.
  · rintro ⟨s, hfollows, -⟩
    by_contra hno
    rw [not_or] at hno
    have hm : m = .sqlite := by
      cases m with
      | sqlite => rfl
      | memory =>
          have hempty := hpath rfl
          subst hempty
          have hlen := h.served.watermark
          have htid := h.nextTid
          change 1 = a.watermark + 1 at htid
          exact absurd (List.length_eq_zero_iff.mp (by omega)) hno.1
    subst hm
    rcases open_filled hds hfits.1.all_from hpre h hno.1 hno.2 with ⟨e, herr⟩
    unfold Session.follows at hfollows
    rw [herr] at hfollows
    cases hfollows
  · intro hcond
    -- Otherwise it opens, either on nothing or where it was.
    have hopen : ∃ ds₂ a₂ b₂, openFollower m se.bootstrap (pathAfter m earlier) =
        .ok (Store.boot none none b₂) b₂ ∧
        ds₂ <+: ((Watched.begin types true).run events).accepted ∧
        Replica ds₂ a₂ b₂ ∧ a₂.watermark = reach a.watermark se.bootstrap := by
      rcases hcond with hempty | hnothing
      · have hzero : a.watermark = 0 := by
          rw [h.served.watermark, hempty]
          rfl
        rw [h.pristine hempty, hzero]
        exact open_fits hds hfits.1
      · rw [hnothing]
        exact ⟨ds₁, a, pathAfter m earlier, rfl, hpre, h, rfl⟩
    rcases hopen with ⟨ds₂, a₂, b₂, hrun, hpre₂, h₂, hreached⟩
    -- From there on every sync that fits goes on.
    have hsyncs := hfits.2
    rw [← hreached] at hsyncs
    rcases resyncs_fit (m := m) hds se.syncs (s := Store.boot none none b₂) hpre₂ h₂
      (boot_reread b₂) rfl hsyncs with ⟨t, hall, hconv⟩
    refine ⟨t, ?_, ?_⟩
    · unfold Session.follows
      rw [hrun]
      exact hall
    · unfold Session.reached
      rw [reach_append, ← hreached]
      exact hconv

/-- Two commits of parts. -/
def partCommits : List Event :=
  Watched.secondPart (.int 2) ++ [.act Watched.partOwner (.commit false)]

/-- A coordinator that has committed two parts. -/
def partCoordinator : Watched := (Watched.begin Watched.partTypes true).run partCommits

/-- What it serves, as frames. -/
def partFrames : List Frame := partCoordinator.accepted.map fun d => .delta d false

/-- A follower in memory opens with the first commit and syncs with both of
    them, twice. -/
theorem followers_converge_on_parts :
    ∃ s, (Session.mk (partFrames.take 1) [partFrames, partFrames]).follows .memory {} = some s ∧
      Converged partCoordinator.accepted 2 s := by
  have hfits : (Session.mk (partFrames.take 1) [partFrames, partFrames]).Fits
      partCoordinator.accepted 0 := ⟨by decide +kernel, by decide +kernel⟩
  have hreached : (Session.mk (partFrames.take 1) [partFrames, partFrames]).reached 0 = 2 := by
    decide +kernel
  rcases (followers_converge Watched.partTypes partCommits .memory [] (fun _ => rfl)
    (fun _ he => nomatch he) ⟨partFrames.take 1, [partFrames, partFrames]⟩ hfits).mpr (Or.inl rfl)
    with ⟨s, hs, hconv⟩
  exact ⟨s, hs, hreached ▸ hconv⟩

/-- A follower that opens on a file it has filled before raises: the file has
    the shapes of the first delta. -/
theorem reopened_follower_raises :
    let b := pathAfter .sqlite [⟨partFrames, []⟩]
    Fits partCoordinator.accepted 0 partFrames ∧
      ((Session.mk partFrames []).follows .sqlite {}).isSome = true ∧ b.marks.nextTid = 3 ∧
      (openFollower .sqlite partFrames b matches .error .backend _) ∧
      ((Session.mk partFrames []).follows .sqlite b).isNone = true := by
  decide +kernel

end DataCrystal
