import DataCrystal.MirrorFiles

/-!
# Flushing a Mirror

Flushes and compactions keep the invariant of a mirror, wherever they are cut
off or raise. The order of the file steps carries the proof. A segment is written
under a number nothing names, so until the manifest is replaced the old one
stands as it was. When it is replaced, every class has its pending rows on file.
A file is removed only when neither manifest names it.

## Theorems

* `writeSegment_leads`, `compactType_leads`: Writing and folding segments.
* `commitManifest_leads`: Committing the manifest.
* `flush_leads`, `compact_leads`, `apply_leads`: The operations.
-/

namespace DataCrystal

open Mirror

variable {τ κ : Type} [DecidableEq τ] {L : Columnar τ κ} {V : String → ColumnValues}
  {types : Types} {only : Option (List String)} {taken : List Delta}
  {todo : List (String × Dict Nat (Option Row))} {doomed : List SegmentName} {whole : Bool}

section Segments

omit [DecidableEq τ] in
/-- The pending rows of a class are written to a new file. -/
theorem writeSegment_leads (typename : String) (rows : Dict Nat (Option Row)) :
    Leads (fun w => Absorbing L V types only taken ((typename, rows) :: todo) doomed whole w ∧
        ∀ row, some row ∈ rows.values →
          RowFits L (V typename) (w.mirror.state typename).columns row)
      (writeSegment L typename rows)
      (fun _ w => Absorbing L V types only taken todo doomed whole w)
      (Ended L V types only taken whole) := by
  unfold writeSegment
  refine leads_get_bind fun s => ?_
  dsimp only
  generalize hst : s.mirror.state typename = st
  -- The mirror is the same until the file is on disk.
  let during (f : Whole (SegmentTable τ κ)) (w : MirrorWorld τ κ) : Prop :=
    w.mirror = s.mirror ∧
    Absorbing L V types only taken ((typename, rows) :: todo) doomed whole w ∧
    w.disk.data (typename, st.nextSegment) = some f ∧
    ∀ row, some row ∈ rows.values → RowFits L (V typename) st.columns row
  have hfree : ∀ {w}, w.mirror = s.mirror →
      Absorbing L V types only taken ((typename, rows) :: todo) doomed whole w →
      Free w (typename, st.nextSegment) := by
    intro w hw h
    have hnext := h.ok.free_next typename
    rw [hw, hst] at hnext
    exact hnext
  refine leads_bind (Q := fun _ => during ⟨some (L.pendingTable st.columns rows), false⟩) ?_
    fun _ => ?_
  · refine leads_fileStep ?_ (by rintro w ⟨rfl, h, -⟩ -; exact h.ended)
    rintro w left ⟨rfl, h, hfits⟩ hleft
    refine ⟨rfl, h.onFree (hfree rfl h) hleft (fun other hother => ?_) (fun _ hmem => hmem) rfl,
      Function.update_self .., hst ▸ hfits⟩
    exact Function.update_of_ne hother ..
  refine leads_bind (Q := fun _ => during ⟨some (L.pendingTable st.columns rows), true⟩) ?_
    fun _ => ?_
  · refine leads_fileStep ?_ fun w hw _ => hw.2.1.ended
    rintro w left ⟨hw, h, hfile, hfits⟩ hleft
    refine ⟨hw, h.onFree (hfree hw h) hleft (fun other hother => ?_) (fun _ hmem => hmem) rfl,
      ?_, hfits⟩
    · exact Function.update_of_ne hother ..
    · change Cabinet.sync _ w.disk.data _ = _
      rw [Cabinet.sync, Function.update_self, hfile]
      rfl
  refine leads_bind (Q := fun _ => during ⟨some (L.pendingTable st.columns rows), true⟩) ?_
    fun _ => ?_
  · refine leads_fileStep ?_ fun w hw _ => hw.2.1.ended
    rintro w left ⟨hw, h, hfile, hfits⟩ hleft
    exact ⟨hw, h.onFree (hfree hw h) hleft (fun _ _ => rfl) (fun _ hmem => hmem) rfl, hfile, hfits⟩
  · -- The segment joins the class: its rows stand for what was pending.
    refine leads_modify fun w hw => ?_
    rcases hw with ⟨hw, h, hfile, hfits⟩
    rw [← hw] at hst
    have hrows : w.mirror.pendingOf typename = rows := h.pending (typename, rows) List.mem_cons_self
    have hold := h.ok.rows typename
    rw [hst, hrows] at hold
    have hfiled : Filed w.disk (typename, st.nextSegment) (L.pendingTable st.columns rows) :=
      ⟨_, hfile, rfl, Or.inl rfl⟩
    have hnodup := h.nodup
    rw [List.map_cons, List.nodup_cons] at hnodup
    rw [hst]
    refine h.setState (List.suffix_cons _ _) (fun other hne hmem => ?_) ?_ ?_ (fun _ => ?_)
      fun name hname => ?_
    · rw [List.map_cons, List.mem_cons] at hmem
      exact hmem.resolve_left hne
    · rw [hst]
      exact Nat.le_succ _
    · rw [hrows]
      exact hold.push hfiled hfits (Or.inl rfl)
    · exact hold.push hfiled hfits (Or.inr rfl)
    · have hone := h.doomed name hname
      rw [state_setState]
      split
      · next hsame =>
          rw [hsame, hst] at hone
          refine ⟨Nat.lt_succ_of_lt hone.1, fun hmem => ?_⟩
          rcases List.mem_append.mp hmem with hmem | hmem
          · exact hone.2 hmem
          · rw [List.mem_singleton.mp hmem] at hone
            exact absurd hone.1 (Nat.lt_irrefl _)
      · exact hone

/-- The files of a class are folded into a new one, and are doomed. -/
theorem compactType_leads (typename : String) (hreread : ∀ name, Rereads L (V typename name)) :
    Leads (Absorbing L V types only taken todo doomed whole) (compactType L typename)
      (fun obsolete w => Absorbing L V types only taken todo (doomed ++ obsolete) whole w)
      (Ended L V types only taken whole) := by
  unfold compactType
  refine leads_get_bind fun s => ?_
  dsimp only
  generalize hst : s.mirror.state typename = st
  -- Reading changes nothing, the fold is written to a free name, and only then do the
  -- segments give way to it.
  refine leads_bind (Q := fun tables w => w = s ∧
    Absorbing L V types only taken todo doomed whole w ∧
    st.segments.mapM (readFile L s.disk.data typename st.columns) = .ok tables) ?_ fun tables => ?_
  · refine leads_ofExcept ?_ ?_
    · rintro tables w hread ⟨rfl, h⟩
      exact ⟨rfl, h, hread⟩
    · rintro w ⟨rfl, h⟩
      exact h.ended
  refine leads_bind (Q := fun _ w => w.mirror = s.mirror ∧
    Absorbing L V types only taken todo doomed whole w ∧
    Absorbing L V types only taken todo doomed whole s ∧
    ∀ recent tbl, Stands L V s.disk typename st recent tbl → Stands L V w.disk typename
      { st with segments := [st.nextSegment], nextSegment := st.nextSegment + 1 } recent tbl) ?_
    fun _ => ?_
  · refine leads_fileStep ?_ (by rintro w ⟨rfl, h, -⟩ -; exact h.ended)
    rintro w left ⟨rfl, h, hread⟩ hleft
    have hfree := h.ok.free_next typename
    rw [hst] at hfree
    refine ⟨rfl, h.onFree hfree hleft (fun other hother => ?_)
      (fun name hname => List.mem_append_left _ hname) rfl, h, fun recent tbl hold => ?_⟩
    · exact Function.update_of_ne hother ..
    · refine hold.fold hreread hread ⟨_, Function.update_self .., rfl, Or.inr ?_⟩
      exact List.mem_append_right _ List.mem_cons_self
  refine leads_bind (Q := fun _ w => Absorbing L V types only taken todo
    (doomed ++ st.segments.map fun number => (typename, number)) whole w) ?_
    fun _ => leads_pure fun _ h => h
  refine leads_modify fun w hw => ?_
  rcases hw with ⟨hw, h, hs, hfolded⟩
  rw [← hw] at hst
  have hrows := hs.ok.rows typename
  rw [← hw, hst] at hrows
  rw [hst]
  refine h.setState List.suffix_rfl (fun _ _ hmem => hmem) ?_ (hfolded _ _ hrows)
    (fun hdone => ?_) fun name hname => ?_
  · rw [hst]
    exact Nat.le_succ _
  · have habsorbed := hs.absorbed typename hdone
    rw [← hw, hst] at habsorbed
    exact hfolded _ _ habsorbed
  · rw [state_setState]
    rcases List.mem_append.mp hname with hname | hname
    · -- What was doomed before is still named by nobody.
      have hone := h.doomed name hname
      split
      · next hsame =>
          rw [hsame, hst] at hone
          refine ⟨Nat.lt_succ_of_lt hone.1, fun hmem => ?_⟩
          rw [List.mem_singleton.mp hmem] at hone
          exact absurd hone.1 (Nat.lt_irrefl _)
      · exact hone
    · rcases List.mem_map.mp hname with ⟨n, hn, rfl⟩
      have hlt := hrows.below n hn
      rw [if_pos rfl]
      refine ⟨Nat.lt_succ_of_lt hlt, fun hmem => ?_⟩
      have hsame : n = st.nextSegment := List.mem_singleton.mp hmem
      omega

end Segments

section Flush

omit [DecidableEq τ] in
/-- The columns of a class move, in a flush. -/
theorem Absorbing.widen {w : MirrorWorld τ κ} {typename : String} {columns : Dict String τ}
    (h : Absorbing L V types only taken todo doomed whole w)
    (hmoved : Moved L (V typename) (w.mirror.state typename).columns columns) :
    Absorbing L V types only taken todo doomed whole { w with
      mirror := w.mirror.setState typename
        { w.mirror.state typename with columns := columns } } := by
  refine h.setState List.suffix_rfl (fun _ _ hmem => hmem) (Nat.le_refl _) ?_ (fun hdone => ?_)
    fun name hname => ?_
  · rcases h.ok.rows typename with ⟨parts, hclass, hlive⟩
    exact ⟨parts, hclass.widen hmoved, hlive⟩
  · rcases h.absorbed typename hdone with ⟨parts, hclass, hlive⟩
    exact ⟨parts, hclass.widen hmoved, hlive⟩
  · have hone := h.doomed name hname
    rw [state_setState]
    split
    · next hsame =>
        rw [hsame] at hone
        exact hone
    · exact hone

/-- The rows of one class are flushed. -/
theorem flushType_leads (hreread : ∀ typename name, Rereads L (V typename name))
    (e : String × Dict Nat (Option Row)) (todo : List (String × Dict Nat (Option Row)))
    (doomed : List SegmentName) :
    Leads (Absorbing L V types only taken (e :: todo) doomed whole) (flushType L doomed e)
      (fun doomed w => Absorbing L V types only taken todo doomed whole w)
      (Ended L V types only taken whole) := by
  unfold flushType
  by_cases hempty : e.2.entries.isEmpty = true
  · rw [if_pos hempty]
    refine leads_pure fun w h => ?_
    -- No rows are pending, so the class stands for its table as it is.
    have hrows : w.mirror.pendingOf e.1 = Dict.empty := by
      rw [h.pending e List.mem_cons_self]
      exact Dict.entries_injective (List.isEmpty_iff.mp hempty)
    have hold := h.ok.rows e.1
    rw [hrows] at hold
    refine { h with pending := fun e' he' => h.pending e' (List.mem_cons_of_mem e he')
                    nodup := (List.nodup_cons.mp h.nodup).2, absorbed := fun typename hdone => ?_ }
    by_cases hsame : typename = e.1
    · rw [hsame]
      exact hold
    · refine h.absorbed typename fun hmem => ?_
      rw [List.map_cons, List.mem_cons] at hmem
      exact hmem.elim hsame hdone
  · rw [if_neg hempty]
    refine leads_bind (Q := fun _ w => Absorbing L V types only taken (e :: todo) doomed whole w ∧
      ∀ row, some row ∈ e.2.values →
        RowFits L (V e.1) (w.mirror.state e.1).columns row) ?_ fun _ => ?_
    · -- The columns widen over the pending rows first, and then every row fits.
      intro w h
      have hvalues : ∀ row, some row ∈ e.2.values → ∀ name v, row.get? name = some v →
          V e.1 name v := by
        intro row hrow
        rcases List.mem_map.mp hrow with ⟨⟨oid, _⟩, hmem, rfl⟩
        have hget := (Dict.get?_eq_some_iff _ _ _).mpr hmem
        rw [← h.pending e List.mem_cons_self] at hget
        exact h.ok.values e.1 oid row hget
      have hreached : Reached L (V e.1) (w.mirror.state e.1).columns := by
        rcases h.ok.rows e.1 with ⟨_, hclass, _⟩
        exact hclass.reached
      have hwiden := widenRows_leads (L := L) (w.mirror.state e.1).columns e.2.values hvalues
        (w.mirror.state e.1).columns ⟨.refl _, hreached⟩
      unfold onColumns zoom
      dsimp only
      cases hrun : L.widenRows e.2.values (w.mirror.state e.1).columns with
      | error err columns =>
          rw [hrun] at hwiden
          exact (h.widen hwiden).ended
      | ok u columns =>
          rw [hrun] at hwiden
          refine ⟨h.widen hwiden.1, ?_⟩
          dsimp only
          rw [state_setState_self]
          exact hwiden.2
    · refine leads_bind (writeSegment_leads e.1 e.2) fun _ => leads_get_bind fun s => ?_
      split
      · refine leads_bind (Q := fun obsolete w =>
          Absorbing L V types only taken todo (doomed ++ obsolete) whole w) ?_
          fun obsolete => leads_pure fun _ h => h
        refine leads_mono (compactType_leads e.1 (hreread e.1)) ?_ fun _ _ h => h
        rintro w ⟨rfl, h⟩
        exact h
      · refine leads_pure ?_
        rintro w ⟨rfl, h⟩
        exact h

omit [DecidableEq τ] in
/-- When all rows are on file, the manifest stands for all deltas. -/
theorem Absorbing.recoverable {w : MirrorWorld τ κ}
    (h : Absorbing L V types only taken [] doomed whole w) :
    Recoverable L V types only taken w (some w.mirror.manifest) where
  mirrored m hm := by
    cases hm
    exact h.ok.mirrored
  committed := ⟨taken, [], (List.append_nil taken).symm, rfl, rfl, h.ok.watermark, h.ok.lineage,
    fun typename => h.absorbed typename List.not_mem_nil⟩
  below _ := Nat.le_refl _

omit [DecidableEq τ] in
/-- Other manifests that are fit for recovery may take the place of the present ones. -/
theorem MirrorOk.onManifest {w : MirrorWorld τ κ} {slot : Slot (MirrorManifest τ)}
    {left : Option Nat} (h : MirrorOk L V types only taken w)
    (hcurrent : Recoverable L V types only taken w slot.current)
    (hstable : Recoverable L V types only taken w slot.stable) :
    MirrorOk L V types only taken
      { w with disk := { w.disk with manifest := slot }, left := left } :=
  { h with rows := fun typename => (h.rows typename).onDisk (fun _ _ => rfl) fun _ hmem => hmem
           current := hcurrent.onDisk (fun _ _ _ => rfl) fun _ hmem => hmem
           stable := hstable.onDisk (fun _ _ _ => rfl) fun _ hmem => hmem }

omit [DecidableEq τ] in
theorem Absorbing.onManifest {w : MirrorWorld τ κ} {slot : Option (MirrorManifest τ)}
    {left : Option Nat} (h : Absorbing L V types only taken todo doomed whole w)
    (hleft : left.isNone = w.left.isNone) (hslot : Recoverable L V types only taken w slot) :
    Absorbing L V types only taken todo doomed whole
      { w with disk := { w.disk with manifest := ⟨slot, slot⟩ }, left := left } :=
  { h with ok := h.ok.onManifest hslot hslot, settled := rfl
           whole := by rw [← h.whole]; exact hleft
           absorbed := fun typename hdone =>
             (h.absorbed typename hdone).onDisk (fun _ _ => rfl) fun _ hmem => hmem }

/-- A mirror whose manifest is up to date. -/
def UpToDate (w : MirrorWorld τ κ) : Prop := w.disk.manifest.current = some w.mirror.manifest

omit [DecidableEq τ] in
/-- The manifest is replaced, and then synced. -/
theorem writeManifest_leads :
    Leads (Absorbing L V types only taken [] doomed whole) writeManifest
      (fun _ w => Absorbing L V types only taken [] doomed whole w ∧ UpToDate w)
      (Ended L V types only taken whole) := by
  have hid : Leads (Absorbing L V types only taken [] doomed whole) (fileStep id)
      (fun _ => Absorbing L V types only taken [] doomed whole)
      (Ended L V types only taken whole) := by
    refine leads_fileStep (fun w left h hleft => ?_) fun w h _ => h.ended
    exact h.onFree (h.ok.free_next "") hleft (fun _ _ => rfl) (fun _ hmem => hmem) rfl
  unfold writeManifest
  refine leads_bind hid fun _ => leads_bind hid fun _ => leads_get_bind fun s => ?_
  -- The new manifest is there, and the old one may still come back.
  refine leads_bind (Q := fun _ w => UpToDate w ∧ MirrorOk L V types only taken w ∧
    w.left.isNone = whole ∧ Absorbing L V types only taken [] doomed whole
      { w with disk.manifest := ⟨w.disk.manifest.current, w.disk.manifest.current⟩ }) ?_
    fun _ => ?_
  · refine leads_fileStep ?_ (by rintro w ⟨rfl, h⟩ -; exact h.ended)
    rintro w left ⟨rfl, h⟩ hleft
    refine ⟨rfl, h.ok.onManifest h.recoverable h.ok.stable, by rw [hleft, h.whole], ?_⟩
    exact h.onManifest (by rw [hleft]) h.recoverable
  · refine leads_fileStep ?_ ?_
    · rintro w left ⟨hdate, -, hwhole, h⟩ hleft
      have hok : MirrorOk L V types only taken { w with
          disk.manifest := ⟨w.disk.manifest.current, w.disk.manifest.current⟩, left := left } :=
        h.ok.onFree (h.ok.free_next "") (fun _ _ => rfl) (fun _ hmem => hmem) rfl
      exact ⟨{ h with ok := hok, settled := rfl, whole := by rw [hleft, hwhole] }, hdate⟩
    · rintro w ⟨-, h, hwhole, -⟩ hstop
      refine ⟨h, fun hw => ?_, hwhole⟩
      rw [hwhole, hw] at hstop
      cases hstop

omit [DecidableEq τ] in
/-- The manifest moves, and then the doomed files go. -/
theorem commitManifest_leads :
    Leads (Absorbing L V types only taken [] doomed whole) (commitManifest doomed)
      (fun _ w => Absorbing L V types only taken [] [] whole w ∧ UpToDate w)
      (Ended L V types only taken whole) := by
  unfold commitManifest
  refine leads_bind writeManifest_leads fun _ => ?_
  refine leads_forM (J := fun doomed w =>
    Absorbing L V types only taken [] doomed whole w ∧ UpToDate w) (fun name rest => ?_) doomed
  refine leads_fileStep ?_ fun w h _ => h.1.ended
  rintro w left ⟨h, hdate⟩ hleft
  have hgone := (h.doomed name List.mem_cons_self).2
  have hcurrent : name.2 ∉
      ((w.disk.manifest.current.getD {}).tables.getD name.1 {}).segments := by
    rw [hdate]
    exact hgone
  have hfree : Free w name := ⟨hgone, hcurrent, by rw [h.settled]; exact hcurrent⟩
  have hafter : Absorbing L V types only taken [] (name :: rest) whole
      { w with disk.data := w.disk.data.unlink name, left := left } :=
    h.onFree hfree hleft (fun other hother => Function.update_of_ne hother ..)
      (fun _ hmem => hmem) rfl
  exact ⟨{ hafter with
    doomed := fun other hother => h.doomed other (List.mem_cons_of_mem name hother) }, hdate⟩

/-- A mirror between two operations: it stands for the deltas it was given, and the
    manifest that is seen is the one on disk. -/
structure Resting (L : Columnar τ κ) (V : String → ColumnValues) (types : Types)
    (only : Option (List String)) (taken : List Delta) (whole : Bool) (w : MirrorWorld τ κ) :
    Prop where
  ok : MirrorOk L V types only taken w
  settled : w.disk.manifest.stable = w.disk.manifest.current
  whole : w.left.isNone = whole

omit [DecidableEq τ] in
theorem Resting.ended {w : MirrorWorld τ κ} (h : Resting L V types only taken whole w) :
    Ended L V types only taken whole w := ⟨h.ok, fun _ => h.settled, h.whole⟩

omit [DecidableEq τ] in
theorem Absorbing.resting {w : MirrorWorld τ κ}
    (h : Absorbing L V types only taken todo doomed whole w) :
    Resting L V types only taken whole w := ⟨h.ok, h.settled, h.whole⟩

omit [DecidableEq τ] in
/-- A manifest does not look at what is pending. -/
theorem Recoverable.more {w : MirrorWorld τ κ} {slot : Option (MirrorManifest τ)}
    (h : Recoverable L V types only taken w slot) (mirror : Mirror τ)
    (htables : mirror.tables = w.mirror.tables) (more : List Delta) :
    Recoverable L V types only (taken ++ more) { w with mirror := mirror } slot where
  mirrored := h.mirrored
  committed := by
    rcases h.committed with ⟨kept, rest, htaken, hkept⟩
    exact ⟨kept, rest ++ more, by rw [htaken, List.append_assoc], { hkept with }⟩
  below typename := by
    have hbelow := h.below typename
    unfold Mirror.state at hbelow ⊢
    dsimp only
    rw [htables]
    exact hbelow

omit [DecidableEq τ] in
/-- A flush begins with all pending rows. -/
theorem Resting.absorbing {w : MirrorWorld τ κ} (h : Resting L V types only taken whole w) :
    Absorbing L V types only taken
      (w.mirror.pending.entries.insertionSort fun e e' => e.1 ≤ e'.1) [] whole w where
  ok := h.ok
  settled := h.settled
  whole := h.whole
  pending e he := by
    have hget := (Dict.get?_eq_some_iff _ _ _).mpr ((List.mem_insertionSort _).mp he)
    rw [Mirror.pendingOf, Dict.getD, hget]
    rfl
  nodup := ((List.perm_insertionSort _ _).map Prod.fst).nodup_iff.mpr w.mirror.pending.nodup
  absorbed typename hdone := by
    have hnone : w.mirror.pendingOf typename = Dict.empty := by
      rw [Mirror.pendingOf, Dict.getD, (Dict.not_mem_keys_iff _ _).mp fun hmem => hdone ?_]
      · rfl
      · rcases List.mem_map.mp hmem with ⟨e, he, rfl⟩
        exact List.mem_map_of_mem ((List.mem_insertionSort _).mpr he)
    have hrows := h.ok.rows typename
    rw [hnone] at hrows
    exact hrows
  doomed _ hname := absurd hname List.not_mem_nil

/-- A flush writes everything that is pending. -/
theorem flush_leads (hreread : ∀ typename name, Rereads L (V typename name)) :
    Leads (Resting L V types only taken whole) (flush L)
      (fun _ w => Absorbing L V types only taken [] [] whole w ∧ UpToDate w)
      (Ended L V types only taken whole) := by
  unfold flush
  refine leads_get_bind fun s => ?_
  refine leads_bind (Q := fun doomed w => Absorbing L V types only taken [] doomed whole w)
    (leads_mono (leads_foldlM (J := fun todo doomed w =>
      Absorbing L V types only taken todo doomed whole w)
      (fun e todo doomed => flushType_leads hreread e todo doomed) _ []) ?_ fun _ _ h => h)
    fun doomed => ?_
  · rintro w ⟨rfl, h⟩
    exact h.absorbing
  · refine leads_bind commitManifest_leads fun _ => leads_modify fun w h => ?_
    rcases h with ⟨h, hdate⟩
    have hcurrent := h.ok.current.more { w.mirror with
      pending := Dict.empty, appliesSinceFlush := 0 } rfl []
    have hstable := h.ok.stable.more { w.mirror with
      pending := Dict.empty, appliesSinceFlush := 0 } rfl []
    rw [List.append_nil] at hcurrent hstable
    exact ⟨{ h with ok := { h.ok with rows := fun typename => h.absorbed typename List.not_mem_nil
                                      values := fun _ _ _ hrow => nomatch hrow
                                      current := hcurrent, stable := hstable }
                    pending := fun _ he => absurd he List.not_mem_nil }, hdate⟩

/-- A compaction folds what a flush has written. -/
theorem compact_leads (hreread : ∀ typename name, Rereads L (V typename name)) :
    Leads (Resting L V types only taken whole) (compact L)
      (fun _ w => Resting L V types only taken whole w)
      (Ended L V types only taken whole) := by
  unfold compact
  refine leads_bind (flush_leads hreread) fun _ => leads_get_bind fun s => ?_
  refine leads_bind (Q := fun doomed w => Absorbing L V types only taken [] doomed whole w)
    (leads_mono (leads_foldlM (J := fun _ doomed w =>
      Absorbing L V types only taken [] doomed whole w) (fun typename _ doomed => ?_) _ []) ?_
      fun _ _ h => h) fun doomed => ?_
  · refine leads_get_bind fun t => ?_
    split
    · refine leads_pure ?_
      rintro w ⟨rfl, h⟩
      exact h
    · refine leads_bind (Q := fun obsolete w =>
        Absorbing L V types only taken [] (doomed ++ obsolete) whole w) ?_
        fun obsolete => leads_pure fun _ h => h
      refine leads_mono (compactType_leads typename (hreread typename)) ?_ fun _ _ h => h
      rintro w ⟨rfl, h⟩
      exact h
  · rintro w ⟨rfl, h, -⟩
    exact h
  · exact leads_mono commitManifest_leads (fun _ h => h) fun _ _ h => h.1.resting

end Flush

section Apply

/-- The pending rows and the table move alike. -/
theorem live_addPending (parts : List (Dict Nat (Option Row))) (typename : String)
    (batch : List (String × Nat × Option Row)) :
    ∀ (pending : Dict String (Dict Nat (Option Row))) (tables : String → Dict Nat Row),
      (∀ oid, live (parts ++ [pending.getD typename Dict.empty]) oid =
        (tables typename).get? oid) →
      ∀ oid, live (parts ++ [(batch.foldl addPending pending).getD typename Dict.empty]) oid =
        (batch.foldl Folded.place tables typename).get? oid := by
  induction batch with
  | nil => exact fun _ _ h => h
  | cons e batch ih =>
      intro pending tables h
      rw [List.foldl_cons, List.foldl_cons]
      refine ih _ _ fun oid => ?_
      have hold := h oid
      unfold addPending Folded.place
      rw [live_snoc] at hold ⊢
      by_cases hclass : typename = e.1
      · rw [if_pos hclass, Dict.getD, ← hclass, Dict.get?_set_self, Option.getD_some,
          Dict.get?_set]
        by_cases hoid : oid = e.2.1
        · rw [if_pos hoid]
          cases hrow : e.2.2 with
          | none => rw [hoid, Dict.get?_erase_self]
          | some row => rw [hoid, Dict.get?_set_self]
        · rw [if_neg hoid]
          cases hrow : e.2.2 with
          | none => rw [hold, Dict.get?_erase_ne _ hoid]
          | some row => rw [hold, Dict.get?_set_ne _ _ hoid]
      · rw [if_neg hclass, Dict.getD, Dict.get?_set_ne _ _ hclass]
        exact hold

/-- What is pending comes from the batch, or was pending before. -/
theorem mem_addPending (typename : String) (oid : Nat) (row : Option Row)
    (batch : List (String × Nat × Option Row)) :
    ∀ pending : Dict String (Dict Nat (Option Row)),
      ((batch.foldl addPending pending).getD typename Dict.empty).get? oid = some row →
      (typename, oid, row) ∈ batch ∨
        (pending.getD typename Dict.empty).get? oid = some row := by
  induction batch with
  | nil => exact fun _ h => Or.inr h
  | cons e batch ih =>
      intro pending h
      rw [List.foldl_cons] at h
      rcases ih _ h with hmem | hold
      · exact Or.inl (List.mem_cons_of_mem e hmem)
      · unfold addPending at hold
        by_cases hclass : typename = e.1
        · rw [Dict.getD, ← hclass, Dict.get?_set_self, Option.getD_some, Dict.get?_set] at hold
          split at hold
          · next hoid =>
              cases hold
              refine Or.inl ?_
              rw [hclass, hoid]
              exact List.mem_cons_self
          · exact Or.inr hold
        · rw [Dict.getD, Dict.get?_set_ne _ _ hclass] at hold
          exact Or.inr hold

/-- The values that an operation brings are among those the columns were checked for. -/
def MirrorOp.Valued (V : String → ColumnValues) (types : Types) (m : Mirror τ) : MirrorOp → Prop
  | .apply d => ∀ batch, decodeOps types m.only (learn m.types d.types) d.ops = .ok batch →
      ∀ typename oid row, (typename, oid, some row) ∈ batch →
        ∀ name v, row.get? name = some v → V typename name v
  | .flush => True
  | .compact => True

omit [DecidableEq τ] in
/-- One more delta that can be decoded is folded. -/
theorem ofDeltas_snoc {m : Mirror τ} {d : Delta} {batch : List (String × Nat × Option Row)}
    (hlineage : m.types = (Folded.ofDeltas types only taken).types) (hmirrored : m.only = only)
    (hbatch : decodeOps types m.only (learn m.types d.types) d.ops = .ok batch) :
    Folded.ofDeltas types only (taken ++ [d]) = ⟨learn m.types d.types,
      batch.foldl Folded.place (Folded.ofDeltas types only taken).tables⟩ := by
  have hstep : Folded.ofDeltas types only (taken ++ [d]) =
      Folded.step types only (Folded.ofDeltas types only taken) d := by
    unfold Folded.ofDeltas
    rw [List.foldl_append]
    rfl
  rw [hstep]
  unfold Folded.step
  rw [← hlineage, ← hmirrored]
  dsimp only
  rw [hbatch]

omit [DecidableEq τ] in
/-- A delta that was taken in is pending. -/
theorem MirrorOk.take {w : MirrorWorld τ κ} (h : MirrorOk L V types only taken w) {d : Delta}
    {batch : List (String × Nat × Option Row)} (htid : d.tid = w.mirror.watermark + 1)
    (hbatch : decodeOps types w.mirror.only (learn w.mirror.types d.types) d.ops = .ok batch)
    (hvalued : MirrorOp.Valued V types w.mirror (.apply d)) (applies : Nat) :
    MirrorOk L V types only (taken ++ [d]) { w with mirror := { w.mirror with
      types := learn w.mirror.types d.types, pending := batch.foldl addPending w.mirror.pending
      watermark := d.tid, appliesSinceFlush := applies } } := by
  have hfold := ofDeltas_snoc h.lineage h.mirrored hbatch
  have hcurrent := h.current.more { w.mirror with
    types := learn w.mirror.types d.types, pending := batch.foldl addPending w.mirror.pending
    watermark := d.tid, appliesSinceFlush := applies } rfl [d]
  have hstable := h.stable.more { w.mirror with
    types := learn w.mirror.types d.types, pending := batch.foldl addPending w.mirror.pending
    watermark := d.tid, appliesSinceFlush := applies } rfl [d]
  refine ⟨?_, h.mirrored, by rw [hfold], ?_, fun typename => ?_, fun typename oid row hrow => ?_,
    hcurrent, hstable⟩
  · refine h.tids.snoc ?_
    rw [htid, h.watermark, Nat.zero_add]
  · change d.tid = _
    rw [htid, h.watermark, List.length_append, List.length_singleton]
  · rcases h.rows typename with ⟨parts, hclass, hlive⟩
    rw [hfold]
    exact ⟨parts, hclass, live_addPending parts typename batch _ _ hlive⟩
  · rcases mem_addPending typename oid (some row) batch _ hrow with hmem | hold
    · exact hvalued batch hbatch typename oid row hmem
    · exact h.values typename oid row hold

omit [DecidableEq τ] in
/-- A mirror takes in a delta it accepts, and no other. -/
theorem MirrorOp.taken_apply (m : Mirror τ) (d : Delta) :
    (MirrorOp.apply d).taken types m = if checkDeltaHeader d = .ok () ∧
      d.tid = m.watermark + 1 ∧
      (decodeOps types m.only (learn m.types d.types) d.ops).isOk = true then [d] else [] := by
  unfold MirrorOp.taken Mirror.accepts
  dsimp only
  simp only [decide_eq_true_eq]

/-- A delta is taken in, or the mirror stays as it is. -/
theorem apply_leads (hreread : ∀ typename name, Rereads L (V typename name))
    {s : MirrorWorld τ κ} {d : Delta} (hvalued : MirrorOp.Valued V types s.mirror (.apply d)) :
    Leads (fun w => w = s ∧ Resting L V types only taken whole w) (Mirror.apply L types d)
      (fun _ w => Resting L V types only
        (taken ++ (MirrorOp.apply d).taken types s.mirror) whole w)
      (Ended L V types only (taken ++ (MirrorOp.apply d).taken types s.mirror) whole) := by
  rw [MirrorOp.taken_apply]
  unfold Mirror.apply
  by_cases hheader : checkDeltaHeader d = .ok ()
  · rw [hheader]
    refine leads_bind (Q := fun _ w => w = s ∧ Resting L V types only taken whole w)
      (leads_pure fun _ h => h) fun _ => leads_get_bind fun t => ?_
    refine leads_of (p := t = s ∧ Resting L V types only taken whole t) ?_ fun hstart => ?_
    · rintro w ⟨rfl, rfl, h⟩
      exact ⟨rfl, h⟩
    rcases hstart with ⟨rfl, h⟩
    -- A known delta is skipped, a gap refused; the next one is decoded before it is taken.
    by_cases hold : d.tid ≤ t.mirror.watermark
    · rw [if_pos hold, if_neg (by omega), List.append_nil]
      exact leads_pure fun w hw => hw.1 ▸ h
    rw [if_neg hold]
    by_cases hnext : d.tid = t.mirror.watermark + 1
    · rw [if_neg (not_not.mpr hnext)]
      dsimp only
      cases hbatch : decodeOps types t.mirror.only (learn t.mirror.types d.types) d.ops with
      | error e =>
          rw [if_neg fun hall => nomatch hall.2.2]
          rw [List.append_nil]
          refine leads_bind (Q := fun _ _ => False) (leads_throw fun w hw => ?_)
            fun _ _ hfalse => hfalse.elim
          exact hw.1 ▸ h.ended
      | ok batch =>
          rw [if_pos ⟨rfl, hnext, rfl⟩]
          refine leads_bind (Q := fun rows _ => rows = batch) (leads_pure fun _ _ => rfl)
            fun rows => ?_
          refine leads_bind (Q := fun _ w => Resting L V types only (taken ++ [d]) whole w) ?_
            fun _ => ?_
          · intro w hrows
            rw [hrows]
            exact ⟨h.ok.take hnext hbatch hvalued _, h.settled, h.whole⟩
          split
          · exact leads_bind (flush_leads hreread) fun _ => leads_pure fun _ h => h.1.resting
          · exact leads_pure fun _ h => h
    · rw [if_pos hnext, if_neg fun hall => hnext hall.2.1, List.append_nil]
      exact leads_throw fun w hw => hw.1 ▸ h.ended
  · -- A delta that is not understood is turned away first.
    rw [if_neg fun hall => hheader hall.1, List.append_nil]
    cases hcheck : checkDeltaHeader d with
    | ok u => exact absurd hcheck hheader
    | error e =>
        refine leads_bind (Q := fun _ _ => False) (leads_throw ?_) fun _ _ hfalse => hfalse.elim
        rintro w ⟨-, h⟩
        exact h.ended

/-- Whatever is done to a mirror keeps the invariant, cut off or not. -/
theorem op_leads (hreread : ∀ typename name, Rereads L (V typename name)) (o : MirrorOp)
    {s : MirrorWorld τ κ} (hvalued : o.Valued V types s.mirror) :
    Leads (fun w => w = s ∧ Resting L V types only taken whole w) (o.run L types)
      (fun _ w => Ended L V types only (taken ++ o.taken types s.mirror) whole w)
      (Ended L V types only (taken ++ o.taken types s.mirror) whole) := by
  cases o with
  | apply d => exact leads_bind (apply_leads hreread hvalued) fun _ => leads_pure fun _ h => h.ended
  | flush =>
      change Leads _ (flush L) (fun _ w => Ended L V types only (taken ++ []) whole w)
        (Ended L V types only (taken ++ []) whole)
      rw [List.append_nil]
      exact leads_mono (flush_leads hreread) (fun _ h => h.2) fun _ _ h => h.1.ended
  | compact =>
      change Leads _ (compact L) (fun _ w => Ended L V types only (taken ++ []) whole w)
        (Ended L V types only (taken ++ []) whole)
      rw [List.append_nil]
      exact leads_mono (compact_leads hreread) (fun _ h => h.2) fun _ _ h => h.ended

end Apply

end DataCrystal
