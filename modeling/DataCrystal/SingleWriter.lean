import DataCrystal.Lease

/-!
# A Single Writer

What the lock promises is that a writer stays the only one while it lives and
refreshes in time. It does not keep the promise: an opener that judged a lock file
removes whatever the path names by then, a new lock file is empty until its creator
writes it and an empty one counts as stale, and a refresher replaces what was put
there since it looked.

`OnTarget` is what the three have in common. A step that takes the lock file away
must find the file its opener looked at, and nobody who still has to write it; and a
refresher must move the payload it wrote. `single_writer` is that nothing else
is wrong.

Two facts carry the proof. A lock file whose creator lives and has still to write it
is at the path, is empty and has no second creator (`Orderly`). And what an opener
condemned stays condemned (`Condemned`): the clock does not go back and a dead
process does not return, so it cannot be the file of a writer that lives and
refreshed in time.

## Main definitions

* `Returns`: An `acquire` returns in a step.
* `Keeps`: An opener holds the lock, lives and refreshed in time.
* `SingleWriter`: While it does, no other `acquire` returns.
* `OnTarget`: The condition.
* `Orderly`: The invariant of the runs that meet it.

## Theorems

* `orderly_step`: The condition keeps the invariant.
* `names_step`: A writer that keeps its lease is named by the lock file.
* `single_writer`: There is one writer at a time.
-/

namespace DataCrystal

namespace Lease

variable {site : Site} {s t : Lease} {o n : Nat}

section Definitions

variable (site : Site)

/-- The `acquire` of an opener returns in a step. -/
def Returns (s : Lease) (e : LeaseEvent) (o : Nat) : Prop :=
  (s.opener o).phase ≠ .held ∧ ((s.step site e).opener o).phase = .held

/-- An opener has acquired the lock and not begun to release it, lives, and refreshed
    it within two times to live. -/
def Keeps (s : Lease) (o : Nat) : Prop :=
  (s.opener o).phase = .held ∧ s.alive site o = true ∧
    s.clock - (s.opener o).refreshed ≤ site.ttl * 2

/-- Once an `acquire` returned, no other one returns as long as the first keeps its
    lease. -/
def SingleWriter (s : Lease) (es : List LeaseEvent) : Prop :=
  ∀ o o' before e later e' rest, es = before ++ e :: (later ++ e' :: rest) →
    (s.run site before).Returns site e o →
    EachStep (step site) (fun t _ => t.Keeps site o) (s.run site (before ++ [e])) (later ++ [e']) →
    o' ≠ o → ¬(s.run site (before ++ e :: later)).Returns site e' o'

/-- Nobody who lives has still to write the file at the lock path. A file whose
    creator has not written it yet is unreadable, and so it counts as stale. -/
def Settled (s : Lease) : Prop :=
  ∀ o ∈ s.openers.keys, s.alive site o = true → ∀ n ∈ s.path, (s.opener o).phase ≠ .writing n

/-- A step that takes the lock file away takes the one its opener looked at, with its
    creator done; a refresher puts the payload it wrote in its place. -/
def OnTarget (s : Lease) : LeaseEvent → Prop
  | .main o =>
    match (s.opener o).phase with
    -- A file that is found stale is taken away only as it was found.
    | .unlinking found => s.path = none ∨ s.read = found ∧ s.Settled site
    -- A release takes its own file.
    | .removing => s.path = none ∨ ∃ h, s.read = some h ∧ h.token = some o
    | _ => True
  | .refresh o _ =>
    match (s.opener o).refresher with
    -- The temporary file still holds what this refresher wrote.
    | .replacing stamp => s.temp = none ∨ s.temp = some (some (site.payload o stamp)) ∧
        foreign o s.read = false ∧ s.Settled site
    | _ => True
  | _ => True

/-- Whoever the text names has not refreshed it in time, or does not run. A text
    that names nobody or has no time condemns itself. -/
def Condemned (s : Lease) (found : Content) : Prop :=
  ∀ h ts, found = some h → h.ts = some ts → site.ttl * 2 < s.clock - ts ∨
    ∃ host pid, h.host = some host ∧ h.pid = some pid ∧ site.noProcess s.live host pid = true

/-- The invariant: who has still to write its file finds it at the path, empty, and
    is the only one; and who is about to unlink found a condemned file. -/
structure Orderly (s : Lease) : Prop where
  path_lt : ∀ n, s.path = some n → n < s.fresh
  at_path : ∀ o n, s.alive site o = true → (s.opener o).phase = .writing n → s.path = some n
  empty : ∀ o n, s.alive site o = true → (s.opener o).phase = .writing n → s.read = none
  unique : ∀ o o' n n', s.alive site o = true → s.alive site o' = true →
    (s.opener o).phase = .writing n → (s.opener o').phase = .writing n' → o = o'
  condemned : ∀ o found, (s.opener o).phase = .unlinking found → s.Condemned site found

/-- The lock file is the one the opener wrote last. -/
def Names (s : Lease) (o : Nat) : Prop :=
  s.read = some (site.payload o (s.opener o).refreshed)

end Definitions

section Decisions

variable (site : Site) (s : Lease)

instance decidableReturns (e : LeaseEvent) (o : Nat) : Decidable (s.Returns site e o) :=
  inferInstanceAs (Decidable (_ ∧ _))

instance decidableKeeps (o : Nat) : Decidable (s.Keeps site o) :=
  inferInstanceAs (Decidable (_ ∧ _ ∧ _))

instance decidableSettled : Decidable (s.Settled site) :=
  inferInstanceAs (Decidable (∀ o ∈ s.openers.keys, s.alive site o = true → ∀ n ∈ s.path,
    (s.opener o).phase ≠ .writing n))

instance decidableOnTarget : ∀ e, Decidable (s.OnTarget site e)
  | .tick _ => isTrue trivial
  | .crash _ => isTrue trivial
  | .acquire _ => isTrue trivial
  | .release _ => isTrue trivial
  | .main o =>
    match h : (s.opener o).phase with
    | .unlinking found => decidable_of_iff (s.path = none ∨ s.read = found ∧ s.Settled site)
        (by simp only [OnTarget, h])
    | .removing => decidable_of_iff (s.path = none ∨ ∃ x ∈ s.read, x.token = some o)
        (by simp only [OnTarget, h, Option.mem_def])
    | .idle => isTrue (by simp only [OnTarget, h])
    | .creating => isTrue (by simp only [OnTarget, h])
    | .writing _ => isTrue (by simp only [OnTarget, h])
    | .reading => isTrue (by simp only [OnTarget, h])
    | .judging _ => isTrue (by simp only [OnTarget, h])
    | .refused => isTrue (by simp only [OnTarget, h])
    | .held => isTrue (by simp only [OnTarget, h])
    | .joining _ => isTrue (by simp only [OnTarget, h])
    | .checking => isTrue (by simp only [OnTarget, h])
    | .released => isTrue (by simp only [OnTarget, h])
  | .refresh o _ =>
    match h : (s.opener o).refresher with
    | .replacing stamp => decidable_of_iff (s.temp = none ∨
        s.temp = some (some (site.payload o stamp)) ∧ foreign o s.read = false ∧ s.Settled site)
        (by simp only [OnTarget, h])
    | .off => isTrue (by simp only [OnTarget, h])
    | .waiting _ => isTrue (by simp only [OnTarget, h])
    | .reading => isTrue (by simp only [OnTarget, h])
    | .writing => isTrue (by simp only [OnTarget, h])
    | .done => isTrue (by simp only [OnTarget, h])

end Decisions

section Projections

theorem opener_put (x : Opener) : (s.put o x).opener n = if n = o then x else s.opener n := by
  by_cases hn : n = o
  · simp [opener, put, Dict.getD, hn]
  · simp [opener, put, Dict.getD, Dict.get?_set_ne, hn]

@[simp]
theorem opener_put_self (x : Opener) : (s.put o x).opener o = x := by rw [opener_put, if_pos rfl]

theorem opener_put_ne (x : Opener) (h : n ≠ o) : (s.put o x).opener n = s.opener n := by
  rw [opener_put, if_neg h]

/-- An opener without an entry did nothing yet. -/
theorem mem_keys_of_phase (h : (s.opener o).phase ≠ .idle) : o ∈ s.openers.keys := by
  by_contra hmem
  rw [Dict.not_mem_keys_iff] at hmem
  refine h ?_
  rw [opener, Dict.getD, hmem]
  rfl

@[simp]
theorem read_place (c : Content) : (s.place c).read = c := by simp [read, place]

@[simp]
theorem read_put (x : Opener) : (s.put o x).read = s.read := rfl

@[simp]
theorem read_goto (p : Phase) : (s.goto o p).read = s.read := rfl

@[simp]
theorem read_send (r : Refresher) : (s.send o r).read = s.read := rfl

@[simp]
theorem alive_put (x : Opener) : (s.put o x).alive site n = s.alive site n := rfl

end Projections

section Orderliness

/-- Where an opener may go without a look at the lock file: neither to a write of
    it, nor to an unlink of a text it has not condemned. -/
def Quiet (site : Site) (s : Lease) (p : Phase) : Prop :=
  (∀ n, p ≠ .writing n) ∧ ∀ found, p = .unlinking found → s.Condemned site found

theorem orderly_put (h : s.Orderly site) {x : Opener}
    (hx : x.phase = (s.opener o).phase ∨ Quiet site s x.phase) : (s.put o x).Orderly site := by
  -- An opener that writes after the step wrote before it.
  have hwriting : ∀ k n, ((s.put o x).opener k).phase = .writing n →
      (s.opener k).phase = .writing n := by
    intro k n hk
    by_cases hko : k = o
    · rw [hko, opener_put_self] at hk
      rcases hx with hx | hx
      · rw [hko, ← hx]
        exact hk
      · exact absurd hk (hx.1 n)
    · rwa [opener_put_ne x hko] at hk
  constructor
  · exact h.path_lt
  · exact fun k n hlive hk => h.at_path k n hlive (hwriting k n hk)
  · exact fun k n hlive hk => h.empty k n hlive (hwriting k n hk)
  · exact fun k k' n n' hlive hlive' hk hk' =>
      h.unique k k' n n' hlive hlive' (hwriting k n hk) (hwriting k' n' hk')
  · intro k found hk
    by_cases hko : k = o
    · rw [hko, opener_put_self] at hk
      rcases hx with hx | hx
      · exact h.condemned o found (hx ▸ hk)
      · exact hx.2 found hk
    · rw [opener_put_ne x hko] at hk
      exact h.condemned k found hk

theorem orderly_goto (h : s.Orderly site) {p : Phase} (hp : Quiet site s p) :
    (s.goto o p).Orderly site := orderly_put h (Or.inr hp)

theorem orderly_send (h : s.Orderly site) {r : Refresher} : (s.send o r).Orderly site :=
  orderly_put h (Or.inl rfl)

/-- A settled lock file has no creator that lives and still writes. -/
theorem not_writing_of_settled (h : s.Orderly site) (hs : s.path = none ∨ s.Settled site) (o n : Nat)
    (hlive : s.alive site o = true) : (s.opener o).phase ≠ .writing n := by
  intro hphase
  have hpath : s.path = some n := h.at_path o n hlive hphase
  rcases hs with hs | hs
  · rw [hs] at hpath
    cases hpath
  · have hkey : o ∈ s.openers.keys := mem_keys_of_phase (by rw [hphase]; simp)
    exact hs o hkey hlive n hpath hphase

/-- The lock file may be taken away, and another put in its place, when nobody has
    still to write it. -/
theorem orderly_settled (h : s.Orderly site) (hs : s.path = none ∨ s.Settled site)
    (hopeners : t.openers = s.openers) (hlive : t.live = s.live) (hclock : t.clock = s.clock)
    (hpath : ∀ n, t.path = some n → n < t.fresh) : t.Orderly site := by
  have hopener : ∀ k, t.opener k = s.opener k := fun k => by rw [opener, opener, hopeners]
  have halive : ∀ k, t.alive site k = s.alive site k := fun k => by rw [alive, alive, hlive]
  have hnone : ∀ k n, t.alive site k = true → (t.opener k).phase ≠ .writing n := by
    intro k n hk
    rw [hopener]
    exact not_writing_of_settled h hs k n (halive k ▸ hk)
  constructor
  · exact hpath
  · exact fun k n hk hphase => absurd hphase (hnone k n hk)
  · exact fun k n hk hphase => absurd hphase (hnone k n hk)
  · exact fun k k' n n' hk hk' hphase _ => absurd hphase (hnone k n hk)
  · intro k found hk
    rw [hopener] at hk
    have hold := h.condemned k found hk
    unfold Condemned at hold ⊢
    rwa [hlive, hclock]

theorem orderly_unlink (h : s.Orderly site) (hs : s.path = none ∨ s.Settled site) :
    s.unlink.Orderly site :=
  orderly_settled h hs rfl rfl rfl fun _ hn => nomatch hn

theorem orderly_place (h : s.Orderly site) (hs : s.path = none ∨ s.Settled site) (c : Content) :
    (s.place c).Orderly site := by
  refine orderly_settled h hs rfl rfl rfl fun n hn => ?_
  simp only [place, Option.some.injEq] at hn ⊢
  omega

/-- An exclusive create finds no lock file, so its creator is the only one. -/
theorem orderly_create (h : s.Orderly site) (hpath : s.path = none) :
    ((s.place none).goto o (.writing s.fresh)).Orderly site := by
  have hplaced := orderly_place h (Or.inl hpath) none
  have hnone := not_writing_of_settled h (Or.inl hpath)
  have honly : ∀ k n, s.alive site k = true →
      (((s.place none).goto o (.writing s.fresh)).opener k).phase = .writing n →
      k = o ∧ n = s.fresh := by
    intro k n hk hphase
    by_cases hko : k = o
    · rw [hko, goto, opener_put_self, Phase.writing.injEq] at hphase
      exact ⟨hko, hphase.symm⟩
    · rw [goto, opener_put_ne _ hko] at hphase
      exact absurd hphase (hnone k n hk)
  constructor
  · exact hplaced.path_lt
  · intro k n hk hphase
    rw [(honly k n hk hphase).2]
    rfl
  · exact fun k n hk hphase => read_place none
  · intro k k' n n' hk hk' hphase hphase'
    rw [(honly k n hk hphase).1, (honly k' n' hk' hphase').1]
  · intro k found hk
    by_cases hko : k = o
    · rw [hko, goto, opener_put_self] at hk
      cases hk
    · rw [goto, opener_put_ne _ hko] at hk
      exact hplaced.condemned k found hk

/-- Who writes its file is the only one that had to. -/
theorem orderly_write (h : s.Orderly site) {file : Nat} (hlive : s.alive site o = true)
    (hphase : (s.opener o).phase = .writing file) (c : Content) {x : Opener}
    (hx : Quiet site s x.phase) :
    ({ s with files := s.files.set file c }.put o x).Orderly site := by
  have hnone : ∀ k n, s.alive site k = true →
      (({ s with files := s.files.set file c }.put o x).opener k).phase ≠ .writing n := by
    intro k n hk hwriting
    by_cases hko : k = o
    · rw [hko, opener_put_self] at hwriting
      exact hx.1 n hwriting
    · rw [opener_put_ne x hko] at hwriting
      exact hko (h.unique k o n file hk hlive hwriting hphase)
  constructor
  · exact h.path_lt
  · exact fun k n hk hwriting => absurd hwriting (hnone k n hk)
  · exact fun k n hk hwriting => absurd hwriting (hnone k n hk)
  · exact fun k k' n n' hk hk' hwriting _ => absurd hwriting (hnone k n hk)
  · intro k found hk
    by_cases hko : k = o
    · rw [hko, opener_put_self] at hk
      exact hx.2 found hk
    · rw [opener_put_ne x hko] at hk
      exact h.condemned k found hk

end Orderliness

section Condemning

theorem quiet_of (p : Phase) (hw : ∀ n, p ≠ .writing n) (hu : ∀ found, p ≠ .unlinking found) :
    Quiet site s p := ⟨hw, fun found h => absurd h (hu found)⟩

/-- Who judges a file stale condemns it. -/
theorem condemned_of_stale {h : Holder} {r : Reason}
    (hr : site.staleReason s.live s.clock o h = some r) : s.Condemned site (some h) := by
  intro h' ts hh hts
  cases hh
  rw [Site.staleReason, hts] at hr
  by_cases hexpired : site.ttl * 2 < s.clock - ts
  · exact Or.inl hexpired
  · simp only [hexpired, if_false] at hr
    right
    by_cases hdead : site.holderPidIsDead s.live o h = true
    · unfold Site.holderPidIsDead at hdead
      rw [Bool.and_eq_true, decide_eq_true_eq] at hdead
      cases hpid : h.pid with
      | none => simp [hpid] at hdead
      | some pid =>
          refine ⟨_, pid, hdead.1, rfl, ?_⟩
          simp only [hpid, Bool.and_eq_true] at hdead
          exact hdead.2.2
    · simp [hdead] at hr

theorem condemned_none : s.Condemned site none := fun _ _ hh => nomatch hh

/-- The clock goes forward and processes only die, so what is condemned stays so. -/
theorem condemned_mono {found : Content} (hclock : s.clock ≤ t.clock)
    (hlive : ∀ p ∈ t.live, p ∈ s.live) (h : s.Condemned site found) : t.Condemned site found := by
  intro x ts hx hts
  rcases h x ts hx hts with hexpired | ⟨host, pid, hhost, hpid, hnone⟩
  · exact Or.inl (lt_of_lt_of_le hexpired (sub_le_sub_right hclock ts))
  · refine Or.inr ⟨host, pid, hhost, hpid, ?_⟩
    rw [Site.noProcess, List.all_eq_true] at hnone ⊢
    exact fun p hp => hnone p (hlive p hp)

/-- What a writer that lives and refreshed in time wrote last is not condemned. -/
theorem not_condemned (h : s.Keeps site o) :
    ¬s.Condemned site (some (site.payload o (s.opener o).refreshed)) := by
  intro hcond
  rcases h with ⟨-, hlive, htime⟩
  rcases hcond _ (s.opener o).refreshed rfl rfl with hexpired | ⟨host, pid, hhost, hpid, hnone⟩
  · exact absurd hexpired (not_lt.mpr htime)
  · -- Its own process answers the probe.
    rw [Site.noProcess, List.all_eq_true] at hnone
    have hown := hnone (site.process o) (by simpa [alive] using hlive)
    simp only [Site.payload, Option.some.injEq] at hhost hpid
    simp [hhost, hpid] at hown

end Condemning

section Steps

/-- Judging a lock file leads to a refusal or to the unlinking of what is condemned. -/
theorem orderly_judge (h : s.Orderly site) (found : Content)
    (hphase : (s.opener o).phase = .judging found) : (s.main site o).Orderly site := by
  rw [main, hphase]
  cases found with
  | none =>
      refine orderly_goto h ⟨by simp, fun found hf => ?_⟩
      cases hf
      exact condemned_none
  | some x =>
      cases hstale : site.staleReason s.live s.clock o x with
      | none =>
          simp only [hstale]
          exact orderly_goto h (quiet_of _ (by simp) (by simp))
      | some r =>
          simp only [hstale]
          refine orderly_goto h ⟨by simp, fun found hf => ?_⟩
          cases hf
          exact condemned_of_stale hstale

theorem orderly_main (h : s.Orderly site) (hlive : s.alive site o = true)
    (hon : s.OnTarget site (.main o)) : (s.main site o).Orderly site := by
  -- Most steps only move one opener on, and to a phase the invariant says nothing about.
  have hstill : ∀ {p : Phase}, (∀ n, p ≠ .writing n) → (∀ f, p ≠ .unlinking f) →
      (s.goto o p).Orderly site := fun hw hu => orderly_goto h (quiet_of _ hw hu)
  unfold OnTarget at hon
  cases hphase : (s.opener o).phase with
  | judging found => exact orderly_judge h found hphase
  | creating =>
      simp only [main, hphase]
      cases hpath : s.path with
      | none => exact orderly_create h hpath
      | some n => exact hstill (by simp) (by simp)
  | writing file =>
      simp only [main, hphase]
      exact orderly_write h hlive hphase _ (quiet_of _ (by simp) (by simp))
  | reading =>
      simp only [main, hphase]
      exact hstill (by simp) (by simp)
  | unlinking found =>
      simp only [main, hphase]
      simp only [hphase] at hon
      exact orderly_goto (orderly_unlink h (hon.imp id And.right)) (quiet_of _ (by simp) (by simp))
  | joining since =>
      simp only [main, hphase]
      split_ifs
      · exact hstill (by simp) (by simp)
      · exact hstill (by simp) (by simp)
      · exact h
  | checking =>
      simp only [main, hphase]
      split
      · split_ifs
        · exact hstill (by simp) (by simp)
        · exact hstill (by simp) (by simp)
      · exact hstill (by simp) (by simp)
  | removing =>
      simp only [main, hphase]
      simp only [hphase] at hon
      refine orderly_goto (orderly_unlink h ?_) (quiet_of _ (by simp) (by simp))
      rcases hon with hpath | ⟨x, hread, -⟩
      · exact Or.inl hpath
      · -- A file with a token in it is not empty.
        refine Or.inr fun k _ hk n hn hwriting => ?_
        have hempty := h.empty k n hk hwriting
        rw [hempty] at hread
        cases hread
  | idle => simpa only [main, hphase] using h
  | refused => simpa only [main, hphase] using h
  | held => simpa only [main, hphase] using h
  | released => simpa only [main, hphase] using h

theorem orderly_refresh (h : s.Orderly site) {fault : Bool}
    (hon : s.OnTarget site (.refresh o fault)) : (s.refresh site o fault).Orderly site := by
  unfold OnTarget at hon
  cases hrefresher : (s.opener o).refresher with
  | off => simpa only [refresh, hrefresher] using h
  | done => simpa only [refresh, hrefresher] using h
  | waiting since =>
      simp only [refresh, hrefresher]
      split_ifs
      · exact orderly_send h
      · exact orderly_send h
      · exact h
  | reading =>
      simp only [refresh, hrefresher]
      split_ifs
      · exact orderly_put h (Or.inl rfl)
      · exact orderly_send h
  | writing =>
      simp only [refresh, hrefresher]
      split_ifs
      · exact orderly_send h
      · have htemp : Orderly site { s with temp := some (some (site.payload o s.clock)) } :=
          ⟨h.path_lt, h.at_path, h.empty, h.unique, h.condemned⟩
        exact orderly_send htemp
  | replacing stamp =>
      simp only [refresh, hrefresher]
      simp only [hrefresher] at hon
      split_ifs
      · exact orderly_send h
      · cases htemp : s.temp with
        | none => exact orderly_send h
        -- The file replaced is one that is settled, so nobody is about to write to it.
        | some c =>
            have hsettled : s.Settled site := by
              rcases hon with hnone | ⟨-, -, hs⟩
              · rw [htemp] at hnone
                cases hnone
              · exact hs
            have hplaced : Orderly site { s.place c with temp := none } :=
              orderly_settled h (Or.inr hsettled) rfl rfl rfl
                (orderly_place h (Or.inr hsettled) c).path_lt
            exact orderly_put hplaced (Or.inl rfl)

/-- The condition keeps the invariant. -/
theorem orderly_step (h : s.Orderly site) (e : LeaseEvent) (hon : s.OnTarget site e) :
    (s.step site e).Orderly site := by
  cases e with
  -- Time passes: what was condemned stays so.
  | tick now =>
      exact ⟨h.path_lt, h.at_path, h.empty, h.unique, fun k found hk =>
        condemned_mono (le_max_left _ _) (fun p hp => hp) (h.condemned k found hk)⟩
  -- Whoever died was dropped from the live ones, and the files are as they were.
  | crash p =>
      have hmem : ∀ q ∈ s.live.filter (fun q => q ≠ p), q ∈ s.live :=
        fun q hq => (List.mem_filter.mp hq).1
      -- Who lives now lived before.
      have halive : ∀ k, (s.step site (.crash p)).alive site k = true → s.alive site k = true := by
        intro k hk
        rw [alive, List.contains_iff_mem] at hk ⊢
        exact hmem _ hk
      exact ⟨h.path_lt, fun k n hk => h.at_path k n (halive k hk),
        fun k n hk => h.empty k n (halive k hk),
        fun k k' n n' hk hk' => h.unique k k' n n' (halive k hk) (halive k' hk'),
        fun k found hk => condemned_mono (s := s) le_rfl hmem (h.condemned k found hk)⟩
  | acquire o =>
      simp only [step]
      split_ifs
      · split
        · exact orderly_goto h (quiet_of _ (by simp) (by simp))
        · exact orderly_goto h (quiet_of _ (by simp) (by simp))
        · exact h
      · exact h
  | release o =>
      simp only [step]
      split_ifs
      · split
        · exact orderly_put h (Or.inr (quiet_of _ (by simp) (by simp)))
        · exact orderly_put h (Or.inr (quiet_of _ (by simp) (by simp)))
        · exact orderly_put h (Or.inr (quiet_of _ (by simp) (by simp)))
        · exact h
      · exact h
  | main o =>
      simp only [step]
      split_ifs with hlive
      · exact orderly_main h hlive hon
      · exact h
  | refresh o fault =>
      simp only [step]
      split_ifs
      · exact orderly_refresh h hon
      · exact h

end Steps

section Writers

/-- A step of `acquire` or `release` that ends in holding the lock writes the file. -/
theorem held_main (hnot : (s.opener o).phase ≠ .held)
    (h : ((s.main site n).opener o).phase = .held) :
    n = o ∧ ∃ file, (s.opener o).phase = .writing file := by
  -- Any other step sends its opener to a phase that is not this one.
  have hgoto : ∀ {u : Lease} {p : Phase}, p ≠ .held → u.openers = s.openers →
      ((u.goto n p).opener o).phase ≠ .held := by
    intro u p hp hu
    by_cases hno : o = n
    · rw [hno, goto, opener_put_self]
      exact hp
    · rw [goto, opener_put_ne _ hno, opener, hu]
      exact hnot
  unfold main at h
  split at h
  · split at h
    · exact absurd h (hgoto (by simp) rfl)
    · exact absurd h (hgoto (by simp) rfl)
  · next file hwriting =>
      by_cases hno : n = o
      · exact ⟨hno, file, hno ▸ hwriting⟩
      · rw [opener_put_ne _ (Ne.symm hno)] at h
        exact absurd h hnot
  · exact absurd h (hgoto (by simp) rfl)
  · split at h
    · exact absurd h (hgoto (by simp) rfl)
    · split at h
      · exact absurd h (hgoto (by simp) rfl)
      · exact absurd h (hgoto (by simp) rfl)
  · exact absurd h (hgoto (by simp) rfl)
  · split_ifs at h
    · exact absurd h (hgoto (by simp) rfl)
    · exact absurd h (hgoto (by simp) rfl)
    · exact absurd h hnot
  · split at h
    · split_ifs at h
      · exact absurd h (hgoto (by simp) rfl)
      · exact absurd h (hgoto (by simp) rfl)
    · exact absurd h (hgoto (by simp) rfl)
  · exact absurd h (hgoto (by simp) rfl)
  · exact absurd h hnot

/-- The refresher leaves every opener where it stands. -/
theorem phase_refresh (fault : Bool) :
    ((s.refresh site n fault).opener o).phase = (s.opener o).phase := by
  have hput : ∀ {u : Lease} {x : Opener}, x.phase = (s.opener n).phase → u.openers = s.openers →
      ((u.put n x).opener o).phase = (s.opener o).phase := by
    intro u x hx hu
    by_cases hno : o = n
    · rw [hno, opener_put_self, hx]
    · rw [opener_put_ne x hno, opener, opener, hu]
  unfold refresh
  split
  · split_ifs
    · exact hput rfl rfl
    · exact hput rfl rfl
    · rfl
  · split_ifs
    · exact hput rfl rfl
    · exact hput rfl rfl
  · split_ifs
    · exact hput rfl rfl
    · exact hput rfl rfl
  · split_ifs
    · exact hput rfl rfl
    · split
      · exact hput rfl rfl
      · exact hput rfl rfl
  · rfl

/-- Who returns from an `acquire` wrote the file it created. -/
theorem returns_inv {e : LeaseEvent} (h : s.Returns site e o) :
    e = .main o ∧ s.alive site o = true ∧ ∃ file, (s.opener o).phase = .writing file := by
  rcases h with ⟨hnot, hheld⟩
  -- Whoever moves on to a phase that is not holding does not hold by it.
  have hput : ∀ {k : Nat} {x : Opener}, x.phase ≠ .held →
      ((s.put k x).opener o).phase ≠ .held := by
    intro k x hx
    by_cases hko : o = k
    · rw [hko, opener_put_self]
      exact hx
    · rw [opener_put_ne x hko]
      exact hnot
  cases e with
  | tick now => exact absurd hheld hnot
  | crash p => exact absurd hheld hnot
  | acquire k =>
      simp only [step] at hheld
      split_ifs at hheld
      · split at hheld
        · exact absurd hheld (hput (by simp))
        · exact absurd hheld (hput (by simp))
        · exact absurd hheld hnot
      · exact absurd hheld hnot
  | release k =>
      simp only [step] at hheld
      split_ifs at hheld
      · split at hheld
        · exact absurd hheld (hput (by simp))
        · exact absurd hheld (hput (by simp))
        · exact absurd hheld (hput (by simp))
        · exact absurd hheld hnot
      · exact absurd hheld hnot
  | main k =>
      simp only [step] at hheld
      split_ifs at hheld with hlive
      · rcases held_main hnot hheld with ⟨rfl, hfile⟩
        exact ⟨rfl, hlive, hfile⟩
      · exact absurd hheld hnot
  | refresh k fault =>
      simp only [step] at hheld
      split_ifs at hheld
      · rw [phase_refresh] at hheld
        exact absurd hheld hnot
      · exact absurd hheld hnot

theorem names_of (hread : t.read = s.read)
    (hrefreshed : (t.opener o).refreshed = (s.opener o).refreshed) (h : s.Names site o) :
    t.Names site o := by rw [Names, hread, hrefreshed, h]

theorem names_put {x : Opener} (hx : n = o → x.refreshed = (s.opener o).refreshed)
    (h : s.Names site o) : (s.put n x).Names site o := by
  refine names_of (s := s) rfl ?_ h
  by_cases hno : o = n
  · rw [← hno, opener_put_self, hx hno.symm]
  · rw [opener_put_ne x hno]

theorem names_goto {p : Phase} (h : s.Names site o) : (s.goto n p).Names site o :=
  names_put (fun hno => by rw [hno]) h

theorem names_send {r : Refresher} (h : s.Names site o) : (s.send n r).Names site o :=
  names_put (fun hno => by rw [hno]) h

/-- Who is named by the lock file is not missing from it. -/
theorem path_of_names (h : s.Names site o) : s.path ≠ none := by
  intro hpath
  rw [Names, read, hpath] at h
  cases h

/-- Nobody else can take the lock file of a writer away. -/
theorem names_main (h : s.Orderly site) (hlive : s.alive site n = true)
    (hon : s.OnTarget site (.main n)) (hkeeps : s.Keeps site o) (hnames : s.Names site o) :
    (s.main site n).Names site o := by
  -- The path has the file of the holder, so no step of another opener creates one.
  have hpath := path_of_names hnames
  unfold OnTarget at hon
  cases hphase : (s.opener n).phase with
  | creating =>
      simp only [main, hphase]
      cases hfile : s.path with
      | none => exact absurd hfile hpath
      | some file => exact names_goto hnames
  -- Who writes has an empty file at the path, and this one is not empty.
  | writing file =>
      have hempty := h.empty n file hlive hphase
      rw [hnames] at hempty
      cases hempty
  | reading =>
      simp only [main, hphase]
      exact names_goto hnames
  | judging found =>
      simp only [main, hphase]
      split
      · exact names_goto hnames
      · split
        · exact names_goto hnames
        · exact names_goto hnames
  | unlinking found =>
      simp only [hphase] at hon
      rcases hon with hnone | ⟨hread, -⟩
      · exact absurd hnone hpath
      · -- The file it means to unlink is condemned, and this one is not.
        have hcond := h.condemned n found hphase
        rw [← hread, hnames] at hcond
        exact absurd hcond (not_condemned hkeeps)
  | joining since =>
      simp only [main, hphase]
      split_ifs
      · exact names_goto hnames
      · exact names_goto hnames
      · exact hnames
  | checking =>
      simp only [main, hphase]
      split
      · split_ifs
        · exact names_goto hnames
        · exact names_goto hnames
      · exact names_goto hnames
  | removing =>
      simp only [hphase] at hon
      rcases hon with hnone | ⟨x, hread, htoken⟩
      · exact absurd hnone hpath
      · -- It finds its own token, so it is the writer, who does not release.
        rw [hnames, Option.some.injEq] at hread
        rw [← hread] at htoken
        have hno : o = n := by simpa [Site.payload] using htoken
        rw [hno, Keeps, hphase] at hkeeps
        cases hkeeps.1
  | idle => simpa only [main, hphase] using hnames
  | refused => simpa only [main, hphase] using hnames
  | held => simpa only [main, hphase] using hnames
  | released => simpa only [main, hphase] using hnames

/-- A refresher moves its own payload, and only over its own. -/
theorem names_refresh {fault : Bool} (hon : s.OnTarget site (.refresh n fault))
    (hnames : s.Names site o) : (s.refresh site n fault).Names site o := by
  unfold OnTarget at hon
  cases hrefresher : (s.opener n).refresher with
  | off => simpa only [refresh, hrefresher] using hnames
  | done => simpa only [refresh, hrefresher] using hnames
  | waiting since =>
      simp only [refresh, hrefresher]
      split_ifs
      · exact names_send hnames
      · exact names_send hnames
      · exact hnames
  | reading =>
      simp only [refresh, hrefresher]
      split_ifs
      · exact names_put (fun hno => by rw [hno]) hnames
      · exact names_send hnames
  | writing =>
      simp only [refresh, hrefresher]
      split_ifs
      · exact names_send hnames
      · exact names_send (names_of rfl rfl hnames)
  | replacing stamp =>
      simp only [refresh, hrefresher]
      simp only [hrefresher] at hon
      split_ifs
      · exact names_send hnames
      · cases htemp : s.temp with
        | none => exact names_send hnames
        | some c =>
            -- The file to be replaced is its own, for it is not foreign: the holder writes its name
            -- again.
            rcases hon with hnone | ⟨hown, hforeign, -⟩
            · rw [htemp] at hnone
              cases hnone
            · rw [hnames] at hforeign
              have hno : o = n := by simpa [foreign, Site.payload] using hforeign
              rw [htemp, Option.some.injEq] at hown
              subst hno
              unfold Names
              rw [opener_put_self, hown]
              exact read_place _

/-- A writer that keeps its lease is named by the lock file. -/
theorem names_step (h : s.Orderly site) (e : LeaseEvent) (hon : s.OnTarget site e)
    (hkeeps : s.Keeps site o) (hnames : s.Names site o) : (s.step site e).Names site o := by
  cases e with
  | tick now => exact names_of rfl rfl hnames
  | crash p => exact names_of rfl rfl hnames
  | acquire k =>
      simp only [step]
      split_ifs
      · split
        · exact names_goto hnames
        · exact names_goto hnames
        · exact hnames
      · exact hnames
  | release k =>
      simp only [step]
      split_ifs
      · split
        · exact names_put (fun hko => by rw [hko]) hnames
        · exact names_put (fun hko => by rw [hko]) hnames
        · exact names_put (fun hko => by rw [hko]) hnames
        · exact hnames
      · exact hnames
  | main k =>
      simp only [step]
      split_ifs with hlive
      · exact names_main h hlive hon hkeeps hnames
      · exact hnames
  | refresh k fault =>
      simp only [step]
      split_ifs
      · exact names_refresh hon hnames
      · exact hnames

/-- Who returns from an `acquire` is named by the lock file. -/
theorem names_of_returns (h : s.Orderly site) {e : LeaseEvent} (hret : s.Returns site e o) :
    (s.step site e).Names site o := by
  rcases returns_inv hret with ⟨rfl, hlive, file, hphase⟩
  have hpath := h.at_path o file hlive hphase
  simp only [step, hlive, if_true, main, hphase]
  unfold Names
  rw [opener_put_self]
  simp [read, put, hpath]

end Writers

section Runs

theorem orderly_run (es : List LeaseEvent) (h : s.Orderly site)
    (hes : EachStep (step site) (OnTarget site) s es) : (s.run site es).Orderly site := by
  have hstep : ∀ t e, Orderly site t → t.OnTarget site e → (t.step site e).Orderly site :=
    fun t e ht hon => orderly_step ht e hon
  exact eachStep_invariant hstep es s h hes

theorem names_run (es : List LeaseEvent) : ∀ s : Lease, s.Orderly site →
    EachStep (step site) (OnTarget site) s es →
    EachStep (step site) (fun t _ => t.Keeps site o) s es → s.Names site o →
    (s.run site es).Names site o := by
  induction es with
  | nil => exact fun s _ _ _ hnames => hnames
  | cons e es ih =>
      intro s h hon hkeeps hnames
      exact ih (s.step site e) (orderly_step h e hon.1) hon.2 hkeeps.2
        (names_step h e hon.1 hkeeps.1 hnames)

/-- Nothing is wrong with a directory that nobody opened yet. -/
theorem orderly_start (now : ℚ) (live : List Nat) (lock temp : Option Content) :
    (start now live lock temp).Orderly site := by
  constructor
  · intro n hn
    cases lock with
    | none => cases hn
    | some c =>
        cases hn
        exact Nat.zero_lt_one
  · exact fun k n _ hphase => nomatch hphase
  · exact fun k n _ hphase => nomatch hphase
  · exact fun k k' n n' _ _ hphase => nomatch hphase
  · exact fun k found hphase => nomatch hphase

theorem run_append (es es' : List LeaseEvent) :
    s.run site (es ++ es') = (s.run site es).run site es' := List.foldl_append

/-- As long as every step that takes the lock file away meets the file its opener
    looked at, there is one writer at a time. -/
theorem single_writer (site : Site) (now : ℚ) (live : List Nat) (lock temp : Option Content)
    (es : List LeaseEvent) (hes : EachStep (step site) (OnTarget site) (start now live lock temp) es) :
    (start now live lock temp).SingleWriter site es := by
  intro o o' before e later e' rest hsplit hret hkeeps hne hret'
  rw [hsplit, eachStep_append, EachStep, eachStep_append] at hes
  rcases hes with ⟨hbefore, hon, hlater, -⟩
  have hordered := orderly_run before (orderly_start now live lock temp) hbefore
  have hnext := orderly_step hordered e hon
  rw [run_append] at hkeeps
  rw [eachStep_append] at hkeeps
  have hend := names_run later _ hnext hlater hkeeps.1 (names_of_returns hordered hret)
  -- The other opener has created the lock file and not written it, so it is empty.
  rw [run_append] at hret'
  rcases returns_inv hret' with ⟨-, hlive, file, hphase⟩
  have hempty := (orderly_run later hnext hlater).empty o' file hlive hphase
  rw [hend] at hempty
  cases hempty

/-- Two processes on one host, with a time to live of ten seconds. -/
def twoProcesses : Site where
  ttl := 10
  process := id
  host := fun _ => "host"
  pid := fun p => p + 1

/-- A crashed writer's lock is taken over and refreshed, and an opener is refused. -/
theorem single_writer_after_crash :
    (start 100 [0, 1] (some (some ⟨some 7, some 7, some 99, some "host"⟩)) none).SingleWriter
      twoProcesses
      [.acquire 0, .main 0, .main 0, .main 0, .main 0, .main 0, .main 0, .tick 104,
        .refresh 0 false, .refresh 0 false, .refresh 0 false, .refresh 0 false,
        .acquire 1, .main 1, .main 1, .tick 120, .main 1] :=
  single_writer twoProcesses 100 [0, 1] _ none _ (by decide +kernel)

/-- An opener takes the lock file of another one for a stale one before it is written,
    and both return. -/
theorem empty_lock_taken_over : ¬(start 100 [0, 1] none none).SingleWriter twoProcesses
    [.acquire 0, .main 0, .acquire 1, .main 1, .main 1, .main 1, .main 1, .main 0, .main 1,
      .main 1] := by
  intro h
  refine h 0 1 [.acquire 0, .main 0, .acquire 1, .main 1, .main 1, .main 1, .main 1] (.main 0)
    [.main 1] (.main 1) [] rfl ?_ ?_ ?_ ?_
  · decide +kernel
  · decide +kernel
  · decide
  · decide +kernel

end Runs

end Lease

end DataCrystal
