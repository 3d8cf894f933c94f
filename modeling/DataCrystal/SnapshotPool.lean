import DataCrystal.Errors
import DataCrystal.Lib.Raise
import DataCrystal.Lib.Run

/-!
# The Snapshot Pool

The web read path shares one snapshot between the requests at a watermark. An
`acquire` that finds the current snapshot at another watermark than the store's
retires it and builds the next one; a retired snapshot is closed when its last
reader is gone. `acquire` and `release` run under a lock, so each is one step.

Two watermarks are about. A snapshot is made at the backend's, which the second
phase of a commit moves, and compared with `last_tid`, which the third phase moves.
A snapshot made between the two runs ahead of `last_tid` until the third phase has
run.

A build that raises leaves the snapshot it was to replace in place, retired. That
does no harm if `last_tid` never comes to its watermark, which it has passed or
will not stop at. A retired snapshot that runs ahead is another matter: the third
phase brings `last_tid` to it, and the next `acquire` takes it for current.
`BuildsInTime` excludes that and nothing else.

## Main definitions

* `PooledSnapshot`, `SnapshotPool`: The pool, with the watermarks of its store.
* `Reading`: A pool and the readers that have not released.
* `Serves`, `Safe`: What a reader is promised, at the acquire and later.
* `BuildsInTime`: No build fails on a snapshot that runs ahead.
* `Counted`: The invariant.

## Theorems

* `counted_step`: The invariant is kept.
* `pool_safe`: The promise holds in every run that builds in time.
* `failed_build_returns_closed`: It fails behind every step that does not.
-/

namespace DataCrystal

/-- A shared snapshot with its readers counted. -/
structure PooledSnapshot where
  /-- The watermark the snapshot pins. -/
  tid : Nat
  refs : ℤ := 0
  retired : Bool := false
  /-- The snapshot itself is closed. -/
  closed : Bool := false

/-- A retired snapshot without readers is closed. -/
def PooledSnapshot.maybeClose (p : PooledSnapshot) : PooledSnapshot :=
  if p.retired && p.refs ≤ 0 then { p with closed := true } else p

/-- The pool of a store: the snapshots it made, in order, and the current one. -/
structure SnapshotPool where
  /-- The watermark of the backend. -/
  watermark : Nat
  lastTid : Nat
  made : Nat := 0
  snapshot : Nat → PooledSnapshot := fun _ => { tid := 0 }
  current : Option Nat := none

namespace SnapshotPool

/-- Change one snapshot. -/
def update (n : Nat) (f : PooledSnapshot → PooledSnapshot) (s : SnapshotPool) : SnapshotPool :=
  { s with snapshot := Function.update s.snapshot n (f (s.snapshot n)) }

/-- Retire the current snapshot, if there is one. It stays the current one until
    another is built. -/
def retireCurrent (s : SnapshotPool) : SnapshotPool :=
  match s.current with
  | some n => s.update n fun p => { p with retired := true }.maybeClose
  | none => s

/-- A snapshot of the store, at the watermark of its backend. -/
def install (s : SnapshotPool) : SnapshotPool :=
  { s with
    made := s.made + 1
    snapshot := Function.update s.snapshot s.made { tid := s.watermark }
    current := some s.made }

/-- One reader more. -/
def addReader (n : Nat) (s : SnapshotPool) : SnapshotPool :=
  s.update n fun p => { p with refs := p.refs + 1 }

/-- Replace the current snapshot. `fault` is whether the build raises. -/
def renew (fault : Bool) : EStateM Err SnapshotPool Nat := do
  -- The old one is retired before the new one is made, which may raise.
  modify retireCurrent
  if fault then throw .backend
  else
    let s ← get
    modify install
    pure s.made

/-- The shared snapshot at the watermark of the store, with one reader more. -/
def acquire (fault : Bool) : EStateM Err SnapshotPool Nat := do
  let s ← get
  let cur ←
    -- The watermark of the store, which moves in the third phase.
    match s.current.filter fun n => (s.snapshot n).tid = s.lastTid with
    | some n => pure n
    | none => renew fault
  modify (addReader cur)
  pure cur

/-- Drop one reader. -/
def release (n : Nat) (s : SnapshotPool) : SnapshotPool :=
  s.update n fun p => { p with refs := p.refs - 1 }.maybeClose

section Lemmas

variable {s : SnapshotPool} {n m : Nat}

@[simp]
theorem update_made (f : PooledSnapshot → PooledSnapshot) : (s.update n f).made = s.made := rfl

@[simp]
theorem update_current (f : PooledSnapshot → PooledSnapshot) :
    (s.update n f).current = s.current := rfl

@[simp]
theorem update_lastTid (f : PooledSnapshot → PooledSnapshot) :
    (s.update n f).lastTid = s.lastTid := rfl

@[simp]
theorem update_watermark (f : PooledSnapshot → PooledSnapshot) :
    (s.update n f).watermark = s.watermark := rfl

theorem snapshot_update (f : PooledSnapshot → PooledSnapshot) :
    (s.update n f).snapshot m = if m = n then f (s.snapshot n) else s.snapshot m :=
  Function.update_apply ..

@[simp]
theorem maybeClose_tid (p : PooledSnapshot) : p.maybeClose.tid = p.tid := by
  unfold PooledSnapshot.maybeClose
  split <;> rfl

@[simp]
theorem maybeClose_refs (p : PooledSnapshot) : p.maybeClose.refs = p.refs := by
  unfold PooledSnapshot.maybeClose
  split <;> rfl

@[simp]
theorem maybeClose_retired (p : PooledSnapshot) : p.maybeClose.retired = p.retired := by
  unfold PooledSnapshot.maybeClose
  split <;> rfl

/-- What was closed in time is closed if and only if it is retired and drained. -/
theorem maybeClose_closed {p : PooledSnapshot}
    (h : p.closed = true → p.retired = true ∧ p.refs ≤ 0) :
    p.maybeClose.closed = true ↔ p.retired = true ∧ p.refs ≤ 0 := by
  unfold PooledSnapshot.maybeClose
  by_cases hp : p.retired = true ∧ p.refs ≤ 0
  · simp [hp]
  · rw [if_neg (by simpa using hp)]
    exact ⟨h, fun hp' => absurd hp' hp⟩

/-- An acquire that finds the current snapshot at the watermark of the store. -/
theorem acquire_current (hcur : s.current = some n) (htid : (s.snapshot n).tid = s.lastTid)
    (fault : Bool) : acquire fault s = .ok n (s.addReader n) := by
  have hfound : (s.current.filter fun n => (s.snapshot n).tid = s.lastTid) = some n := by
    rw [hcur]
    simp [htid]
  unfold acquire
  rw [bind_run_ok (get_run s), hfound]
  rfl

/-- An acquire that finds it elsewhere, or finds none. -/
theorem acquire_renews (h : ∀ n, s.current = some n → (s.snapshot n).tid ≠ s.lastTid)
    (fault : Bool) : acquire fault s = if fault then .error .backend s.retireCurrent
      else .ok s.retireCurrent.made (s.retireCurrent.install.addReader s.retireCurrent.made) := by
  have hnone : (s.current.filter fun n => (s.snapshot n).tid = s.lastTid) = none := by
    rw [Option.filter_eq_none_iff]
    intro n hn
    simpa using h n hn
  unfold acquire
  rw [bind_run_ok (get_run s), hnone]
  cases fault <;> rfl

@[simp]
theorem retireCurrent_made : s.retireCurrent.made = s.made := by
  unfold retireCurrent
  split <;> rfl

@[simp]
theorem retireCurrent_current : s.retireCurrent.current = s.current := by
  unfold retireCurrent
  split <;> rfl

@[simp]
theorem retireCurrent_lastTid : s.retireCurrent.lastTid = s.lastTid := by
  unfold retireCurrent
  split <;> rfl

@[simp]
theorem retireCurrent_watermark : s.retireCurrent.watermark = s.watermark := by
  unfold retireCurrent
  split <;> rfl

theorem snapshot_retireCurrent : s.retireCurrent.snapshot m =
    if s.current = some m then { s.snapshot m with retired := true }.maybeClose
    else s.snapshot m := by
  unfold retireCurrent
  cases hcur : s.current with
  | none => simp
  | some n =>
      rw [snapshot_update]
      by_cases hm : m = n
      · simp [hm]
      · rw [if_neg hm, if_neg (fun h => hm (Option.some.inj h).symm)]

/-- What the next snapshot is like, with its first reader. -/
theorem snapshot_installed : (s.install.addReader s.made).snapshot m =
    if m = s.made then { tid := s.watermark, refs := 1 } else s.snapshot m := by
  unfold addReader
  rw [snapshot_update]
  by_cases hm : m = s.made
  · simp [hm, install]
  · rw [if_neg hm, if_neg hm]
    exact Function.update_of_ne hm ..

end Lemmas

end SnapshotPool

/-- What happens to a pool: its readers come and go, and the store commits. -/
inductive PoolEvent
  | acquire (fault : Bool)
  /-- A reader of a snapshot releases it. -/
  | release (n : Nat)
  /-- The second phase of a commit: the batch is durable. -/
  | p2
  /-- The third phase of a commit. -/
  | p3
  deriving DecidableEq

/-- A pool and its readers: for each one that has not released, its snapshot. -/
structure Reading where
  pool : SnapshotPool
  held : List Nat := []

namespace Reading

/-- A new pool over an open store. -/
def start (tid : Nat) : Reading := { pool := { watermark := tid, lastTid := tid } }

def step (s : Reading) : PoolEvent → Reading
  | .acquire fault =>
    match SnapshotPool.acquire fault s.pool with
    | .ok n pool => ⟨pool, n :: s.held⟩
    | .error _ pool => ⟨pool, s.held⟩
  | .release n => if n ∈ s.held then ⟨s.pool.release n, s.held.erase n⟩ else s
  -- Storage is ahead of the store between the second phase and the third.
  | .p2 => { s with pool := { s.pool with watermark := s.pool.watermark + 1 } }
  | .p3 => { s with pool := { s.pool with lastTid := s.pool.watermark } }

/-- An acquire that returns gives an open snapshot, at the watermark of the store at
    least. -/
def Serves (s : Reading) (e : PoolEvent) : Prop :=
  ∀ fault n pool, e = .acquire fault → SnapshotPool.acquire fault s.pool = .ok n pool →
    (pool.snapshot n).closed = false ∧ s.pool.lastTid ≤ (pool.snapshot n).tid

/-- A snapshot is open while it has a reader, and closed once it is neither current
    nor read. -/
structure Safe (s : Reading) : Prop where
  read : ∀ n ∈ s.held, (s.pool.snapshot n).closed = false
  drained : ∀ n < s.pool.made, s.pool.current ≠ some n → n ∉ s.held →
    (s.pool.snapshot n).closed = true

/-- A build does not fail while the current snapshot is at the watermark of the
    backend and `last_tid` is not. -/
def BuildsInTime (s : Reading) (e : PoolEvent) : Prop :=
  e = .acquire true → ∀ n ∈ s.pool.current,
    (s.pool.snapshot n).tid = s.pool.lastTid ∨ (s.pool.snapshot n).tid ≠ s.pool.watermark

instance decidableBuildsInTime (s : Reading) (e : PoolEvent) : Decidable (s.BuildsInTime e) :=
  inferInstanceAs (Decidable (_ → ∀ n ∈ s.pool.current, _))

/-- A snapshot is counted right, and closed if and only if it is retired and
    drained. The watermark of storage may be ahead of the one the store shows, but
    not behind. -/
structure Tallied (s : Reading) : Prop where
  ahead : s.pool.lastTid ≤ s.pool.watermark
  pinned : ∀ n < s.pool.made, (s.pool.snapshot n).tid ≤ s.pool.watermark
  bounded : ∀ n, s.pool.current = some n → n < s.pool.made
  heldBounded : ∀ n ∈ s.held, n < s.pool.made
  counted : ∀ n < s.pool.made, (s.pool.snapshot n).refs = s.held.count n
  closed : ∀ n < s.pool.made, (s.pool.snapshot n).closed = true ↔
    (s.pool.snapshot n).retired = true ∧ (s.pool.snapshot n).refs ≤ 0
  replaced : ∀ n < s.pool.made, s.pool.current ≠ some n → (s.pool.snapshot n).retired = true

/-- The invariant: the current snapshot is retired only if `last_tid` does not come
    to it any more. -/
structure Counted (s : Reading) : Prop extends Tallied s where
  passed : ∀ n, s.pool.current = some n → (s.pool.snapshot n).retired = true →
    (s.pool.snapshot n).tid < s.pool.watermark ∧ (s.pool.snapshot n).tid ≠ s.pool.lastTid

section Invariant

variable {s : Reading} {n : Nat}

/-- Readers keep a snapshot open. -/
theorem Tallied.open_of_held (h : s.Tallied) (hn : n ∈ s.held) :
    (s.pool.snapshot n).closed = false := by
  have hlt := h.heldBounded n hn
  have hpos : 0 < s.held.count n := List.count_pos_iff.mpr hn
  by_contra hclosed
  have hdrained := ((h.closed n hlt).mp (by simpa using hclosed)).2
  rw [h.counted n hlt] at hdrained
  omega

theorem Tallied.safe (h : s.Tallied) : s.Safe where
  read _ hn := h.open_of_held hn
  drained n hlt hcur hn := by
    refine (h.closed n hlt).mpr ⟨h.replaced n hlt hcur, ?_⟩
    rw [h.counted n hlt, List.count_eq_zero_of_not_mem hn]
    rfl

theorem counted_start (tid : Nat) : (start tid).Counted where
  ahead := le_rfl
  pinned _ hn := absurd hn (Nat.not_lt_zero _)
  bounded _ hn := by cases hn
  heldBounded _ hn := by cases hn
  counted _ hn := absurd hn (Nat.not_lt_zero _)
  closed _ hn := absurd hn (Nat.not_lt_zero _)
  replaced _ hn := absurd hn (Nat.not_lt_zero _)
  passed _ hn := by cases hn

/-- Retiring the current snapshot keeps the tally, whatever comes of the build. -/
theorem tallied_retire (h : s.Tallied) :
    Tallied { s with pool := s.pool.retireCurrent } := by
  -- A retirement pins nothing else and counts nobody.
  have hsame : ∀ n, (s.pool.retireCurrent.snapshot n).tid = (s.pool.snapshot n).tid ∧
      (s.pool.retireCurrent.snapshot n).refs = (s.pool.snapshot n).refs := by
    intro n
    rw [SnapshotPool.snapshot_retireCurrent]
    split <;> simp
  refine ⟨?_, ?_, ?_, ?_, ?_, ?_, ?_⟩
  · simpa using h.ahead
  · intro n hn
    rw [(hsame n).1]
    simpa using h.pinned n (by simpa using hn)
  · simpa using h.bounded
  · simpa using h.heldBounded
  · intro n hn
    rw [(hsame n).2]
    exact h.counted n (by simpa using hn)
  · intro n hn
    have hold := h.closed n (by simpa using hn)
    rw [(hsame n).2]
    dsimp only
    rw [SnapshotPool.snapshot_retireCurrent]
    split
    · have hretire := SnapshotPool.maybeClose_closed (p := { s.pool.snapshot n with retired := true })
        fun hclosed => ⟨rfl, (hold.mp hclosed).2⟩
      simpa using hretire
    · exact hold
  · intro n hn hcur
    have hold := h.replaced n (by simpa using hn) (by simpa using hcur)
    dsimp only
    rw [SnapshotPool.snapshot_retireCurrent]
    split
    · simp
    · exact hold

theorem retired_retire (hcur : s.pool.retireCurrent.current = some n) :
    (s.pool.retireCurrent.snapshot n).retired = true := by
  rw [SnapshotPool.retireCurrent_current] at hcur
  rw [SnapshotPool.snapshot_retireCurrent, if_pos hcur]
  simp

/-- The next snapshot takes the place of a retired one. -/
theorem counted_install (h : s.Tallied)
    (hretired : ∀ n, s.pool.current = some n → (s.pool.snapshot n).retired = true) :
    Counted ⟨s.pool.install.addReader s.pool.made, s.pool.made :: s.held⟩ := by
  -- The snapshot just made is held by nobody yet, and counts its one reader from the start.
  have hfresh : s.pool.made ∉ s.held := fun hn => Nat.lt_irrefl _ (h.heldBounded _ hn)
  refine ⟨⟨h.ahead, ?_, ?_, ?_, ?_, ?_, ?_⟩, ?_⟩
  · intro n hn
    show (SnapshotPool.snapshot _ n).tid ≤ s.pool.watermark
    rw [SnapshotPool.snapshot_installed]
    split
    · exact le_rfl
    · rename_i hne
      exact h.pinned n (Nat.lt_of_le_of_ne (Nat.le_of_lt_succ hn) hne)
  · intro n hn
    cases hn
    exact Nat.lt_succ_self _
  · intro n hn
    rcases List.mem_cons.mp hn with rfl | hn
    · exact Nat.lt_succ_self _
    · exact Nat.lt_succ_of_lt (h.heldBounded n hn)
  · intro n hn
    dsimp only
    rw [SnapshotPool.snapshot_installed]
    by_cases hne : n = s.pool.made
    · subst hne
      simp [List.count_eq_zero_of_not_mem hfresh]
    · rw [if_neg hne, List.count_cons_of_ne (Ne.symm hne)]
      exact h.counted n (Nat.lt_of_le_of_ne (Nat.le_of_lt_succ hn) hne)
  · intro n hn
    dsimp only
    rw [SnapshotPool.snapshot_installed]
    by_cases hne : n = s.pool.made
    · simp [hne]
    · rw [if_neg hne]
      exact h.closed n (Nat.lt_of_le_of_ne (Nat.le_of_lt_succ hn) hne)
  -- What was current before has been retired by whoever replaced it.
  · intro n hn hcur
    have hne : n ≠ s.pool.made := fun heq => hcur (congrArg some heq.symm)
    have hlt : n < s.pool.made := Nat.lt_of_le_of_ne (Nat.le_of_lt_succ hn) hne
    dsimp only
    rw [SnapshotPool.snapshot_installed, if_neg hne]
    by_cases hold : s.pool.current = some n
    · exact hretired n hold
    · exact h.replaced n hlt hold
  · intro n hcur hret
    cases hcur
    dsimp only at hret
    rw [SnapshotPool.snapshot_installed, if_pos rfl] at hret
    cases hret

/-- A reader joins the current snapshot. -/
theorem counted_join (h : s.Counted) (hcur : s.pool.current = some n)
    (htid : (s.pool.snapshot n).tid = s.pool.lastTid) :
    Counted ⟨s.pool.addReader n, n :: s.held⟩ := by
  -- A retired one has been passed by the transactions, and this one has not.
  have hopen : (s.pool.snapshot n).retired = false := by
    by_contra hret
    exact (h.passed n hcur (by simpa using hret)).2 htid
  have hget : ∀ m, (s.pool.addReader n).snapshot m = if m = n then
      { s.pool.snapshot n with refs := (s.pool.snapshot n).refs + 1 } else s.pool.snapshot m :=
    fun m => SnapshotPool.snapshot_update _
  refine ⟨⟨h.ahead, ?_, h.bounded, ?_, ?_, ?_, ?_⟩, ?_⟩
  · intro m hm
    dsimp only
    rw [hget]
    split
    · exact h.pinned n (h.bounded n hcur)
    · exact h.pinned m hm
  · intro m hm
    rcases List.mem_cons.mp hm with rfl | hm
    · exact h.bounded m hcur
    · exact h.heldBounded m hm
  · intro m hm
    dsimp only
    rw [hget]
    by_cases hne : m = n
    · subst hne
      simp [h.counted m hm]
    · rw [if_neg hne, List.count_cons_of_ne (Ne.symm hne)]
      exact h.counted m hm
  · intro m hm
    dsimp only
    rw [hget]
    by_cases hne : m = n
    · subst hne
      have hclosed := h.closed m hm
      simp only [hopen, Bool.false_eq_true, false_and, iff_false] at hclosed
      simp [hopen, hclosed]
    · rw [if_neg hne]
      exact h.closed m hm
  · intro m hm hne
    dsimp only
    have hother : m ≠ n := fun heq => hne (hcur.trans (congrArg some heq.symm))
    rw [hget, if_neg hother]
    exact h.replaced m hm hne
  · intro m hm hret
    cases hcur.symm.trans hm
    dsimp only at hret
    rw [hget, if_pos rfl] at hret
    exact absurd hret (by simp [hopen])

theorem snapshot_release (s : SnapshotPool) (n m : Nat) : (s.release n).snapshot m =
    if m = n then { s.snapshot n with refs := (s.snapshot n).refs - 1 }.maybeClose
    else s.snapshot m := SnapshotPool.snapshot_update _

/-- A reader leaves. -/
theorem tallied_release (h : s.Tallied) (hn : n ∈ s.held) :
    Tallied ⟨s.pool.release n, s.held.erase n⟩ := by
  -- One holder fewer, and the last one of a retired snapshot closes it.
  have hlt := h.heldBounded n hn
  refine ⟨h.ahead, ?_, h.bounded, ?_, ?_, ?_, ?_⟩
  · intro m hm
    dsimp only
    rw [snapshot_release]
    split
    · exact (SnapshotPool.maybeClose_tid _).trans_le (h.pinned n hlt)
    · exact h.pinned m hm
  · exact fun m hm => h.heldBounded m (List.mem_of_mem_erase hm)
  · intro m hm
    dsimp only
    rw [snapshot_release]
    by_cases hne : m = n
    · subst hne
      have hpos : 0 < s.held.count m := List.count_pos_iff.mpr hn
      have hcount := h.counted m hm
      rw [if_pos rfl, List.count_erase_self, SnapshotPool.maybeClose_refs]
      dsimp only
      omega
    · rw [if_neg hne, List.count_erase_of_ne hne]
      exact h.counted m hm
  · intro m hm
    dsimp only
    rw [snapshot_release]
    by_cases hne : m = n
    · subst hne
      rw [if_pos rfl, SnapshotPool.maybeClose_closed]
      · simp
      · intro hclosed
        have hdrained := (h.closed m hm).mp hclosed
        exact ⟨hdrained.1, by dsimp only; omega⟩
    · rw [if_neg hne]
      exact h.closed m hm
  · intro m hm hne
    dsimp only
    rw [snapshot_release]
    split
    · rename_i heq
      subst heq
      simpa using h.replaced m hm hne
    · exact h.replaced m hm hne

theorem counted_release (h : s.Counted) (hn : n ∈ s.held) :
    Counted ⟨s.pool.release n, s.held.erase n⟩ := by
  refine ⟨tallied_release h.toTallied hn, fun m hm hret => ?_⟩
  dsimp only at hret ⊢
  rw [snapshot_release] at hret ⊢
  split at hret
  · rename_i heq
    subst heq
    have hpassed := h.passed m hm (by simpa using hret)
    rw [if_pos rfl, SnapshotPool.maybeClose_tid]
    exact hpassed
  · rename_i hne
    rw [if_neg hne]
    exact h.passed m hm hret

/-- Every event that builds in time keeps the invariant. -/
theorem counted_step (h : s.Counted) {e : PoolEvent} (he : s.BuildsInTime e) :
    (s.step e).Counted := by
  cases e with
  | acquire fault =>
      by_cases hcur : ∃ n, s.pool.current = some n ∧ (s.pool.snapshot n).tid = s.pool.lastTid
      · rcases hcur with ⟨n, hn, htid⟩
        rw [step, SnapshotPool.acquire_current hn htid]
        exact counted_join h hn htid
      -- The current one is late: it is retired before the new one is made.
      · have hmoved : ∀ n, s.pool.current = some n →
            (s.pool.snapshot n).tid ≠ s.pool.lastTid := fun n hn htid => hcur ⟨n, hn, htid⟩
        rw [step, SnapshotPool.acquire_renews hmoved]
        cases fault with
        | false => exact counted_install (tallied_retire h.toTallied) fun n => retired_retire
        | true =>
            -- The new one was not made, so the retired one is still current; the failure came
            -- in time, with its transaction already passed.
            refine ⟨tallied_retire h.toTallied, fun n hn _ => ?_⟩
            have hold : s.pool.current = some n :=
              SnapshotPool.retireCurrent_current.symm.trans hn
            have hne := hmoved n hold
            have hle := h.pinned n (h.bounded n hold)
            have hlate := (he rfl n hold).resolve_left hne
            have htid : (s.pool.retireCurrent.snapshot n).tid = (s.pool.snapshot n).tid := by
              rw [SnapshotPool.snapshot_retireCurrent, if_pos hold, SnapshotPool.maybeClose_tid]
            simp only [if_true, htid, SnapshotPool.retireCurrent_watermark,
              SnapshotPool.retireCurrent_lastTid]
            exact ⟨by omega, hne⟩
  | release n =>
      rw [step]
      by_cases hn : n ∈ s.held
      · simpa only [if_pos hn] using counted_release h hn
      · simpa only [if_neg hn] using h
  | p2 =>
      have hahead := h.ahead
      refine ⟨⟨Nat.le_succ_of_le h.ahead, fun n hn => Nat.le_succ_of_le (h.pinned n hn),
        h.bounded, h.heldBounded, h.counted, h.closed, h.replaced⟩, fun n hn hret => ?_⟩
      have hpassed := h.passed n hn hret
      exact ⟨Nat.lt_succ_of_lt hpassed.1, hpassed.2⟩
  | p3 =>
      refine ⟨⟨le_rfl, h.pinned, h.bounded, h.heldBounded, h.counted, h.closed, h.replaced⟩,
        fun n hn hret => ?_⟩
      have hpassed := (h.passed n hn hret).1
      exact ⟨hpassed, Nat.ne_of_lt hpassed⟩

/-- An acquire hands out the current snapshot if it is at `last_tid`, which is then
    not retired, or a new one. -/
theorem Counted.serves (h : s.Counted) {e : PoolEvent} (he : s.BuildsInTime e) : s.Serves e := by
  intro fault n pool heq hrun
  subst heq
  have hnext : s.step (.acquire fault) = ⟨pool, n :: s.held⟩ := by
    rw [step, hrun]
  have hcounted : Counted ⟨pool, n :: s.held⟩ := hnext ▸ counted_step h he
  refine ⟨hcounted.open_of_held List.mem_cons_self, ?_⟩
  by_cases hcur : ∃ n, s.pool.current = some n ∧ (s.pool.snapshot n).tid = s.pool.lastTid
  · rcases hcur with ⟨m, hm, htid⟩
    rw [SnapshotPool.acquire_current hm htid] at hrun
    cases hrun
    unfold SnapshotPool.addReader
    rw [SnapshotPool.snapshot_update, if_pos rfl]
    exact htid.ge
  · rw [SnapshotPool.acquire_renews fun m hm htid => hcur ⟨m, hm, htid⟩] at hrun
    cases fault with
    | true => cases hrun
    | false =>
        cases hrun
        rw [SnapshotPool.snapshot_installed, if_pos rfl]
        exact SnapshotPool.retireCurrent_watermark.symm ▸ h.ahead

end Invariant

section Runs

/-- A pool whose builds come in time hands out open snapshots at the watermark of the
    store at least, and keeps each one open exactly as long as it is of use. -/
theorem pool_safe (tid : Nat) (es : List PoolEvent)
    (hes : EachStep step BuildsInTime (start tid) es) :
    EachStep step (fun s e => s.Serves e ∧ (s.step e).Safe) (start tid) es :=
  eachStep_imp (I := Counted) (P := BuildsInTime) (fun _ _ h he => counted_step h he)
    (fun _ _ h he => ⟨h.serves he, (counted_step h he).safe⟩) es (start tid) (counted_start tid) hes

/-- A commit is seen through the window between its phases, and a build fails behind
    it without harm. -/
theorem pool_safe_through_a_commit :
    EachStep step (fun s e => s.Serves e ∧ (s.step e).Safe) (start 3)
      [.acquire false, .p2, .acquire false, .p3, .release 0, .p2, .p3, .acquire true,
        .acquire false, .release 0] :=
  pool_safe 3 _ (by decide +kernel)

/-- A snapshot that is made between the phases of a commit is released, the build
    that is to replace it fails, and the third phase makes it the current one again. -/
theorem pool_returns_closed :
    ¬EachStep step (fun s e => s.Serves e ∧ (s.step e).Safe) (start 0)
      [.p2, .acquire false, .release 0, .acquire true, .p3, .acquire false] := by
  rintro ⟨-, -, -, -, -, ⟨hserves, -⟩, -⟩
  have hopen := hserves false 0 _ rfl rfl
  exact absurd hopen.1 (by decide)

/-- A retired snapshot that is current at `last_tid` is drained and handed out. -/
theorem retired_returns_closed : ∀ (k : Nat) {s : Reading} {n : Nat}, s.Tallied →
    s.pool.current = some n → (s.pool.snapshot n).retired = true →
    (s.pool.snapshot n).tid = s.pool.lastTid → s.held.count n = k →
    ∃ es, ¬EachStep step Serves s es := by
  intro k
  induction k with
  | zero =>
      intro s n h hcur hret htid hcount
      have hlt := h.bounded n hcur
      have hclosed : (s.pool.snapshot n).closed = true := by
        refine (h.closed n hlt).mpr ⟨hret, ?_⟩
        rw [h.counted n hlt, hcount]
        rfl
      refine ⟨[.acquire false], fun hserves => ?_⟩
      have hopen := hserves.1 false n _ rfl (SnapshotPool.acquire_current hcur htid false)
      unfold SnapshotPool.addReader at hopen
      rw [SnapshotPool.snapshot_update, if_pos rfl, hclosed] at hopen
      exact absurd hopen.1 (by decide)
  | succ k ih =>
      intro s n h hcur hret htid hcount
      have hn : n ∈ s.held := List.count_pos_iff.mp (by omega)
      have hnext : s.step (.release n) = ⟨s.pool.release n, s.held.erase n⟩ := by
        rw [step, if_pos hn]
      have hsnap := snapshot_release s.pool n n
      rw [if_pos rfl] at hsnap
      rcases ih (s := ⟨s.pool.release n, s.held.erase n⟩) (tallied_release h hn) hcur
        (by simpa [hsnap] using hret) ((congrArg PooledSnapshot.tid hsnap).trans
          ((SnapshotPool.maybeClose_tid _).trans htid))
        (by rw [List.count_erase_self]; omega) with ⟨es, hes⟩
      exact ⟨.release n :: es, fun hserves => hes (hnext ▸ hserves.2)⟩

/-- Behind a build that fails in the window, some run hands out a closed snapshot. -/
theorem failed_build_returns_closed {s : Reading} {e : PoolEvent} (h : s.Counted)
    (he : ¬s.BuildsInTime e) : ∃ es, ¬EachStep step Serves (s.step e) es := by
  unfold BuildsInTime at he
  push Not at he
  rcases he with ⟨rfl, n, hmem, hne, htid⟩
  have hcur : s.pool.current = some n := hmem
  have hnext : s.step (.acquire true) = ⟨s.pool.retireCurrent, s.held⟩ := by
    rw [step, SnapshotPool.acquire_renews]
    · rfl
    · intro m hm
      cases Option.some.inj (hcur.symm.trans hm)
      exact hne
  have htallied := tallied_retire h.toTallied
  have hcur' : s.pool.retireCurrent.current = some n :=
    SnapshotPool.retireCurrent_current.trans hcur
  have hsame : (s.pool.retireCurrent.snapshot n).tid = s.pool.retireCurrent.watermark := by
    rw [SnapshotPool.snapshot_retireCurrent, if_pos hcur, SnapshotPool.maybeClose_tid,
      SnapshotPool.retireCurrent_watermark]
    exact htid
  rcases retired_returns_closed _ (s := step ⟨s.pool.retireCurrent, s.held⟩ .p3)
    ⟨le_rfl, htallied.pinned, htallied.bounded, htallied.heldBounded, htallied.counted,
      htallied.closed, htallied.replaced⟩ hcur' (retired_retire hcur') hsame rfl with ⟨es, hes⟩
  exact ⟨.p3 :: es, fun hserves => hes (hnext ▸ hserves).2⟩

end Runs

end Reading

end DataCrystal
