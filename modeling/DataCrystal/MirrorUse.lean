import DataCrystal.Columns
import DataCrystal.MirrorLedger

/-!
# A Mirror in Use

A mirror that is given deltas, flushed and compacted, without a crash. Its files stand for a
ledger, operation by operation: the newest live row of every object is in the ledger's table,
with the columns it has been under. So the table the mirror shows is the one that is read off
the ledger. It has a row for every object that is live after the deltas, in the order of the
OIDs, with a cell for every column: the value, encoded under the tag the column had when the
row was written, and decoded and encoded again under the tag of every later fold, and the
present one. No flush and no compaction changes a table, whether it is asked for or comes on
its own. But the table of some deltas depends on when the flushes and the folds came.

All operations return. Nothing is asked of the deltas but that the mirror can decode them, one
after the other, and that no field has a name the mirror keeps for itself.

## Main definitions

* `ClassHolds`: The segments of a class stand for a ledger.
* `Midway`: A mirror in the middle of a flush or a compaction.
* `AtRest`: A mirror between two operations.
* `MirrorOp.Recordable`: An operation the mirror can do.
* `MirrorRun.InUse`: A mirror in use, with the deltas it has taken.

## Theorems

* `ClassHolds.table`: The table of a class.
* `ClassHolds.push`, `ClassHolds.fold`: Segments.
* `flush_spec`, `compact_spec`, `apply_spec`: The operations.
* `mirror_shows_folded`: The tables of a mirror after some operations.
-/

namespace DataCrystal

open Mirror

variable {τ κ : Type} [DecidableEq τ] {L : Columnar τ κ} {types : Types}

section Classes

variable {disk disk' : MirrorDisk τ κ} {typename : String} {st : TableState τ} {g : Ledger τ}

/-- The segments of a class stand for a ledger: as many files as it has segments,
    whose newest rows are the stored ones of the ledger, under the columns of the
    ledger. -/
structure ClassHolds (L : Columnar τ κ) (disk : MirrorDisk τ κ) (typename : String)
    (st : TableState τ) (g : Ledger τ) : Prop where
  columns : st.columns = g.columns
  count : st.segments.length = g.segments
  entries : ∃ entries, List.Forall₂ (fun n d => ∃ t, disk.data.Has (typename, n) t ∧
      SegmentHolds L t d) st.segments entries ∧ ∀ oid, live entries oid = g.stored.get? oid
  below : ∀ n ∈ st.segments, n < st.nextSegment

theorem foldLive_snoc_nil (parts : List (List (SegmentRow κ))) :
    foldLive (parts ++ [[]]) = foldLive parts := by
  have hfold : foldNewest Prod.fst (parts ++ [[]]) = foldNewest Prod.fst parts := by
    induction parts with
    | nil => rfl
    | cons part parts ih =>
        have hkeys : (parts ++ [[]]).flatten = parts.flatten := by
          rw [List.flatten_append]
          exact List.append_nil _
        rw [List.cons_append, foldNewest_cons, foldNewest_cons, ih, hkeys]
  unfold foldLive
  rw [hfold]

theorem ClassHolds.onDisk (h : ClassHolds L disk typename st g)
    (hdata : ∀ n ∈ st.segments, disk'.data (typename, n) = disk.data (typename, n)) :
    ClassHolds L disk' typename st g := by
  rcases h.entries with ⟨entries, hstored, hlive⟩
  refine { h with entries := ⟨entries, ?_, hlive⟩ }
  refine ((List.forall₂_and_left _ _).mpr ⟨hdata, hstored⟩).imp ?_
  rintro n d ⟨hsame, t, ⟨f, hf, hcontent⟩, hrows⟩
  exact ⟨t, ⟨f, by rw [hsame, hf], hcontent⟩, hrows⟩

/-- A segment that can be read. -/
theorem readFile_of_has {n : Nat} {t : SegmentTable τ κ} {columns : Dict String τ}
    (h : disk.data.Has (typename, n) t) :
    readFile L disk.data typename columns n = .ok (L.readSegment columns t) := by
  rcases h with ⟨f, hf, hcontent⟩
  unfold readFile
  rw [hf, Option.bind_some, hcontent]

/-- The segments of a class can be read under some columns, which enters these in the history
    of every row. -/
theorem ClassHolds.read (h : ClassHolds L disk typename st g) (columns : Dict String τ) :
    ∃ parts entries, st.segments.mapM (readFile L disk.data typename columns) = .ok parts ∧
      List.Forall₂ (fun rows d => List.Forall₂ (RowOf L columns) rows d.entries) parts entries ∧
      ∀ oid, live entries oid = (g.stored.get? oid).map (Traced.fold columns) := by
  rcases h.entries with ⟨entries, hstored, hlive⟩
  have hparts : ∃ parts, st.segments.mapM (readFile L disk.data typename columns) = .ok parts ∧
      List.Forall₂ (fun rows d => List.Forall₂ (RowOf L columns) rows d.entries) parts
        (entries.map (refold columns)) := by
    clear hlive
    generalize st.segments = segments at hstored ⊢
    induction hstored with
    | nil => exact ⟨[], rfl, .nil⟩
    | cons hone _ ih =>
        rcases hone with ⟨t, hhas, hrows⟩
        rcases ih with ⟨parts, hparts, hall⟩
        refine ⟨L.readSegment columns t :: parts, ?_, .cons (hrows.read columns) hall⟩
        rw [List.mapM_cons, readFile_of_has hhas, hparts]
        rfl
  rcases hparts with ⟨parts, hparts, hall⟩
  refine ⟨parts, entries.map (refold columns), hparts, hall, fun oid => ?_⟩
  rw [← hlive]
  exact live_mapVal (Traced.fold columns) entries oid

omit [DecidableEq τ] in
/-- The pending rows on top of some segments. -/
theorem live_fresh (entries : List (Dict Nat (Option (Traced τ)))) (columns : Dict String τ)
    (pending : Dict Nat (Option Row)) (oid : Nat) :
    live (entries ++ [freshTraced columns pending]) oid = match pending.get? oid with
      | some row => row.map fun row => ⟨row, columns, []⟩
      | none => live entries oid := by
  rw [live_snoc, freshTraced, Dict.get?_mapVal]
  cases pending.get? oid <;> rfl

/-- The table of a class is that of its ledger. -/
theorem ClassHolds.table {w : MirrorWorld τ κ}
    (h : ClassHolds L w.disk typename (w.mirror.state typename) g)
    (hpending : w.mirror.pendingOf typename = g.pending)
    (hwidened : L.widenRows g.pending.values g.columns = .ok () (g.widened L)) :
    Mirror.table L typename w = .ok (g.table L) := by
  rcases h.read (g.widened L) with ⟨parts, entries, hparts, hall, hlive⟩
  have hrows := List.rel_append hall
    (.cons (pendingTable_holds (L := L) (g.widened L) g.pending) .nil)
  have hfolded : foldLive (parts ++ [(L.pendingTable (g.widened L) g.pending).rows]) =
      (g.table L).2 := by
    have hlookup : ∀ oid, (live (entries ++ [freshTraced (g.widened L) g.pending]) oid).map L.traced =
        ((g.settled (g.widened L)).mapVal fun _ x => L.traced (x.fold (g.widened L))).get? oid := by
      intro oid
      rw [live_fresh, Dict.get?_mapVal, get?_settled, hlive]
      cases g.pending.get? oid with
      | some row =>
          -- A pending row has been under the present columns only.
          cases row with
          | none => rfl
          | some row => exact congrArg some (traced_fold_self rfl).symm
      | none => cases g.stored.get? oid <;> rfl
    rw [foldLive_eq hrows, sorted_liveRows_map hlookup]
    exact (sortByKey_map (f := fun x : Traced τ => L.traced (x.fold (g.widened L))) _).symm
  unfold Mirror.table
  dsimp only
  rw [hpending, h.columns, hwidened]
  dsimp only
  rw [hparts]
  dsimp only
  by_cases hempty : g.pending.entries.isEmpty = true
  · have hnone : (L.pendingTable (g.widened L) g.pending).rows = [] := by
      unfold Columnar.pendingTable
      dsimp only
      rw [List.isEmpty_iff.mp hempty]
      rfl
    rw [hnone, foldLive_snoc_nil] at hfolded
    rw [if_pos hempty, List.append_nil, hfolded]
    rfl
  · rw [if_neg hempty, hfolded]
    rfl

/-- The pending rows of a class are written to a new segment. -/
theorem ClassHolds.push (h : ClassHolds L disk typename st g)
    (hdata : ∀ n ∈ st.segments, disk'.data (typename, n) = disk.data (typename, n))
    (hfile : disk'.data.Has (typename, st.nextSegment) (L.pendingTable (g.widened L) g.pending)) :
    ClassHolds L disk' typename
      ⟨g.widened L, st.segments ++ [st.nextSegment], st.nextSegment + 1⟩ (g.push L) where
  columns := rfl
  count := by
    rw [List.length_append, h.count]
    rfl
  entries := by
    rcases (h.onDisk hdata).entries with ⟨entries, hstored, hlive⟩
    refine ⟨entries ++ [freshTraced (g.widened L) g.pending], ?_, fun oid => ?_⟩
    · exact List.rel_append hstored (.cons ⟨_, hfile, pendingTable_holds _ _⟩ .nil)
    · rw [live_fresh, hlive]
      exact (get?_settled oid).symm
  below n hn := by
    change n < st.nextSegment + 1
    rcases List.mem_append.mp hn with hn | hn
    · have hlt := h.below n hn
      omega
    · rw [List.mem_singleton.mp hn]
      omega

/-- The segments of a class are folded into a new one. -/
theorem ClassHolds.fold (h : ClassHolds L disk typename st g)
    {parts : List (List (SegmentRow κ))}
    (hparts : st.segments.mapM (readFile L disk.data typename st.columns) = .ok parts)
    (hfile : disk'.data.Has (typename, st.nextSegment) (foldedTable st.columns parts)) :
    ClassHolds L disk' typename ⟨st.columns, [st.nextSegment], st.nextSegment + 1⟩ g.fold where
  columns := h.columns
  count := rfl
  entries := by
    rcases h.read st.columns with ⟨parts', entries, hparts', hall, hlive⟩
    rw [hparts] at hparts'
    cases hparts'
    refine ⟨[compacted entries], .cons ⟨_, hfile, foldedTable_holds hall⟩ .nil, fun oid => ?_⟩
    change _ = (g.stored.mapVal fun _ x => x.fold g.columns).get? oid
    rw [live_compacted, hlive, h.columns, Dict.get?_mapVal]
  below n hn := by
    change n < st.nextSegment + 1
    rw [List.mem_singleton.mp hn]
    omega

end Classes

section Steps

variable {w : MirrorWorld τ κ}

omit [DecidableEq τ] in
theorem fileStep_run {f : MirrorDisk τ κ → MirrorDisk τ κ} (h : w.left = none) :
    fileStep f w = .ok () { w with disk := f w.disk } := by
  cases w with
  | mk mirror disk left =>
      cases h
      rfl

omit [DecidableEq τ] in
/-- A segment is written, and counted. -/
theorem writeSegment_run (typename : String) (recent : Dict Nat (Option Row)) (h : w.left = none) :
    ∃ w', writeSegment L typename recent w = .ok () w' ∧ w'.left = none ∧
      w'.mirror = w.mirror.setState typename ⟨(w.mirror.state typename).columns,
        (w.mirror.state typename).segments ++ [(w.mirror.state typename).nextSegment],
        (w.mirror.state typename).nextSegment + 1⟩ ∧
      w'.disk.data = Cabinet.sync (typename, (w.mirror.state typename).nextSegment)
        (w.disk.data.write (typename, (w.mirror.state typename).nextSegment)
          (L.pendingTable (w.mirror.state typename).columns recent)) := by
  unfold writeSegment
  rw [bind_run_ok (get_run w)]
  unfold onData
  rw [bind_run_ok (fileStep_run h), bind_run_ok (fileStep_run (by exact h)),
    bind_run_ok (fileStep_run (by exact h))]
  exact ⟨_, rfl, h, rfl, rfl⟩

/-- The segments of a class are folded. -/
theorem compactType_run (typename : String) {parts : List (List (SegmentRow κ))}
    (hparts : (w.mirror.state typename).segments.mapM (readFile L w.disk.data typename
      (w.mirror.state typename).columns) = .ok parts) (h : w.left = none) :
    ∃ w', compactType L typename w = .ok
        ((w.mirror.state typename).segments.map fun number => (typename, number)) w' ∧
      w'.left = none ∧
      w'.mirror = w.mirror.setState typename ⟨(w.mirror.state typename).columns,
        [(w.mirror.state typename).nextSegment], (w.mirror.state typename).nextSegment + 1⟩ ∧
      w'.disk.data = w.disk.data.write (typename, (w.mirror.state typename).nextSegment)
        (foldedTable (w.mirror.state typename).columns parts) := by
  unfold compactType
  rw [bind_run_ok (get_run w), hparts]
  have hread : (ofExcept (Except.ok parts) : EStateM MirrorErr (MirrorWorld τ κ) _) w =
      .ok parts w := rfl
  rw [bind_run_ok hread, bind_run_ok (fileStep_run h)]
  exact ⟨_, rfl, h, rfl, rfl⟩

omit [DecidableEq τ] in
/-- The manifest is replaced, and the segments stay where they are. -/
theorem writeManifest_run (h : w.left = none) : ∃ w', writeManifest w = .ok () w' ∧
    w'.left = none ∧ w'.mirror = w.mirror ∧ w'.disk.data = w.disk.data := by
  unfold writeManifest
  rw [bind_run_ok (fileStep_run h), bind_run_ok (fileStep_run (by exact h)),
    bind_run_ok (get_run _), bind_run_ok (fileStep_run (by exact h)), fileStep_run (by exact h)]
  exact ⟨_, rfl, h, rfl, rfl⟩

end Steps

section Flush

variable {V : String → ColumnValues} {held : String → Ledger τ} {mirror : Mirror τ}
  {doomed : List SegmentName} {w w' : MirrorWorld τ κ}

/-- A mirror in the middle of a flush or a compaction that began with some mirror. Its segments
    stand for some ledgers, and none of them is a file that is doomed. -/
structure Midway (L : Columnar τ κ) (held : String → Ledger τ) (mirror : Mirror τ)
    (doomed : List SegmentName) (w : MirrorWorld τ κ) : Prop where
  left : w.left = none
  same : ∃ tables, w.mirror = { mirror with tables := tables }
  holds : ∀ typename, ClassHolds L w.disk typename (w.mirror.state typename) (held typename)
  doomed : ∀ name ∈ doomed, name.2 < (w.mirror.state name.1).nextSegment ∧
    name.2 ∉ (w.mirror.state name.1).segments

/-- New bookkeeping and a new file for one class. -/
theorem Midway.onClass (h : Midway L held mirror doomed w) (typename : String) {g : Ledger τ}
    (hleft : w'.left = none) (hsame : ∃ tables, w'.mirror = { w.mirror with tables := tables })
    (hstate : ∀ other, other ≠ typename → w'.mirror.state other = w.mirror.state other)
    (hdata : ∀ other n, other ≠ typename → w'.disk.data (other, n) = w.disk.data (other, n))
    (hholds : ClassHolds L w'.disk typename (w'.mirror.state typename) g)
    (hnext : (w.mirror.state typename).nextSegment ≤ (w'.mirror.state typename).nextSegment)
    (hsegments : ∀ n ∈ (w'.mirror.state typename).segments,
      n ∈ (w.mirror.state typename).segments ∨ (w.mirror.state typename).nextSegment ≤ n) :
    Midway L (Function.update held typename g) mirror doomed w' where
  left := hleft
  same := by
    rcases h.same with ⟨tables, htables⟩
    rcases hsame with ⟨tables', htables'⟩
    exact ⟨tables', by rw [htables', htables]⟩
  holds other := by
    by_cases hother : other = typename
    · rw [hother, Function.update_self]
      exact hholds
    · rw [hstate other hother, Function.update_of_ne hother]
      exact (h.holds other).onDisk fun n _ => hdata other n hother
  doomed name hname := by
    have hold := h.doomed name hname
    by_cases hother : name.1 = typename
    · rw [hother] at hold ⊢
      refine ⟨Nat.lt_of_lt_of_le hold.1 hnext, fun hmem => ?_⟩
      rcases hsegments name.2 hmem with hmem | hge
      · exact hold.2 hmem
      · omega
    · rw [hstate name.1 hother]
      exact hold

/-- Other files: those of the segments are as they were. -/
theorem Midway.onDisk (h : Midway L held mirror doomed w) {doomed' : List SegmentName}
    (hdoomed : ∀ name ∈ doomed', name ∈ doomed) (hleft : w'.left = none)
    (hmirror : w'.mirror = w.mirror)
    (hdata : ∀ typename, ∀ n ∈ (w.mirror.state typename).segments,
      w'.disk.data (typename, n) = w.disk.data (typename, n)) :
    Midway L held mirror doomed' w' where
  left := hleft
  same := by
    rw [hmirror]
    exact h.same
  holds typename := by
    rw [hmirror]
    exact (h.holds typename).onDisk (hdata typename)
  doomed name hname := by
    rw [hmirror]
    exact h.doomed name (hdoomed name hname)

/-- The files of a class are folded into a new one, and are doomed. -/
theorem compactType_spec (h : Midway L held mirror doomed w) (typename : String) :
    ∃ obsolete w', compactType L typename w = .ok obsolete w' ∧
      Midway L (Function.update held typename (held typename).fold) mirror (doomed ++ obsolete)
        w' := by
  have hholds := h.holds typename
  rcases hholds.read (w.mirror.state typename).columns with ⟨parts, -, hparts, -, -⟩
  rcases compactType_run typename hparts h.left with ⟨w', hrun, hleft, hmirror, hdata⟩
  -- One segment is left of the class, the one just written.
  have hstate : w'.mirror.state typename = ⟨(w.mirror.state typename).columns,
      [(w.mirror.state typename).nextSegment], (w.mirror.state typename).nextSegment + 1⟩ := by
    rw [hmirror, state_setState_self]
  have hfile : w'.disk.data.Has (typename, (w.mirror.state typename).nextSegment)
      (foldedTable (w.mirror.state typename).columns parts) := by
    rw [hdata]
    exact Cabinet.has_write
  -- Of the other classes nothing has changed, in memory or on disk.
  have hafter : Midway L (Function.update held typename (held typename).fold) mirror doomed w' := by
    refine h.onClass typename hleft ⟨_, hmirror⟩
      (fun other hother => ?_) (fun other n hother => ?_) ?_ ?_ fun n hn => ?_
    · rw [hmirror, state_setState, if_neg hother]
    · rw [hdata]
      exact Function.update_of_ne (fun heq => hother (congrArg Prod.fst heq)) ..
    · rw [hstate]
      exact hholds.fold hparts hfile
    · rw [hstate]
      exact Nat.le_succ _
    · rw [hstate] at hn
      rw [List.mem_singleton.mp hn]
      exact Or.inr (Nat.le_refl _)
  refine ⟨_, w', hrun, { hafter with doomed := fun name hname => ?_ }⟩
  rcases List.mem_append.mp hname with hname | hname
  · exact hafter.doomed name hname
  · -- The segments that were folded have smaller numbers than the new one.
    rcases List.mem_map.mp hname with ⟨n, hn, rfl⟩
    have hlt := hholds.below n hn
    dsimp only
    rw [hstate]
    refine ⟨Nat.lt_succ_of_lt hlt, fun hmem => ?_⟩
    rw [List.mem_singleton.mp hmem] at hlt
    exact absurd hlt (Nat.lt_irrefl _)

/-- The pending rows of a class are written. -/
theorem push_spec (h : Midway L held mirror doomed w) {e : String × Dict Nat (Option Row)}
    (hpending : (held e.1).pending = e.2)
    (hwidened : L.widenRows e.2.values (held e.1).columns = .ok () ((held e.1).widened L)) :
    ∃ w₁ w₂, onColumns e.1 (L.widenRows e.2.values) w = .ok () w₁ ∧
      writeSegment L e.1 e.2 w₁ = .ok () w₂ ∧
      Midway L (Function.update held e.1 ((held e.1).push L)) mirror doomed w₂ := by
  have hholds := h.holds e.1
  have hcolumns : onColumns e.1 (L.widenRows e.2.values) w = .ok () { w with
      mirror := w.mirror.setState e.1
        { w.mirror.state e.1 with columns := (held e.1).widened L } } := by
    unfold onColumns zoom
    dsimp only
    rw [hholds.columns, hwidened]
  have hwrite := @writeSegment_run _ _ L { w with
    mirror := w.mirror.setState e.1
      { w.mirror.state e.1 with columns := (held e.1).widened L } } e.1 e.2 h.left
  dsimp only at hwrite
  rw [state_setState_self] at hwrite
  rcases hwrite with ⟨w₂, hrun, hleft, hmirror, hdata⟩
  -- The class has one segment more, under the number that was next.
  have hstate : w₂.mirror.state e.1 = ⟨(held e.1).widened L,
      (w.mirror.state e.1).segments ++ [(w.mirror.state e.1).nextSegment],
      (w.mirror.state e.1).nextSegment + 1⟩ := by
    rw [hmirror, state_setState_self]
  have hfile : w₂.disk.data.Has (e.1, (w.mirror.state e.1).nextSegment)
      (L.pendingTable ((held e.1).widened L) (held e.1).pending) := by
    rw [hdata, hpending]
    exact Cabinet.Has.sync Cabinet.has_write
  -- One file is written, under a name that no segment had.
  have hkept : ∀ name, name ≠ (e.1, (w.mirror.state e.1).nextSegment) →
      w₂.disk.data name = w.disk.data name := by
    intro name hne
    rw [hdata]
    unfold Cabinet.sync
    rw [Function.update_of_ne hne]
    exact Function.update_of_ne hne ..
  have hold : ∀ n ∈ (w.mirror.state e.1).segments, w₂.disk.data (e.1, n) = w.disk.data (e.1, n) := by
    intro n hn
    refine hkept _ fun heq => ?_
    have hlt := hholds.below n hn
    have hsame : n = (w.mirror.state e.1).nextSegment := congrArg Prod.snd heq
    omega
  refine ⟨_, w₂, hcolumns, hrun, ?_⟩
  refine h.onClass e.1 hleft ⟨_, hmirror⟩
    (fun other hother => ?_) (fun other n hother => ?_) ?_ ?_ fun n hn => ?_
  · rw [hmirror, state_setState, if_neg hother, state_setState, if_neg hother]
  · exact hkept _ fun heq => hother (congrArg Prod.fst heq)
  · rw [hstate]
    exact hholds.push hold hfile
  · rw [hstate]
    exact Nat.le_succ _
  · rw [hstate] at hn
    rcases List.mem_append.mp hn with hn | hn
    · exact Or.inl hn
    · rw [List.mem_singleton.mp hn]
      exact Or.inr (Nat.le_refl _)

/-- The rows of one class are flushed. -/
theorem flushType_spec (h : Midway L held mirror doomed w) {e : String × Dict Nat (Option Row)}
    (hpending : (held e.1).pending = e.2) (hsound : (held e.1).Sound L (V e.1)) :
    ∃ doomed' w', flushType L doomed e w = .ok doomed' w' ∧
      Midway L (Function.update held e.1 ((held e.1).flush L mirror.params.maxSegments)) mirror
        doomed' w' := by
  unfold flushType Ledger.flush
  rw [hpending]
  by_cases hempty : e.2.entries.isEmpty = true
  · rw [if_pos hempty, if_pos hempty, Function.update_eq_self]
    exact ⟨doomed, w, rfl, h⟩
  · rw [if_neg hempty, if_neg hempty]
    have hwidened := hsound.widen.1
    rw [hpending] at hwidened
    rcases push_spec h hpending hwidened with ⟨w₁, w₂, hcolumns, hwrite, hmid⟩
    rw [bind_run_ok hcolumns, bind_run_ok hwrite, bind_run_ok (get_run w₂)]
    have hparams : w₂.mirror.params = mirror.params := by
      rcases hmid.same with ⟨tables, htables⟩
      rw [htables]
    have hcount := (hmid.holds e.1).count
    rw [Function.update_self] at hcount
    rw [hparams, hcount]
    by_cases hmany : mirror.params.maxSegments < ((held e.1).push L).segments
    · rw [if_pos hmany, if_pos hmany]
      rcases compactType_spec hmid e.1 with ⟨obsolete, w₃, hrun, hafter⟩
      rw [Function.update_self, Function.update_idem] at hafter
      refine ⟨_, w₃, ?_, hafter⟩
      rw [bind_run_ok hrun]
      rfl
    · rw [if_neg hmany, if_neg hmany]
      exact ⟨doomed, w₂, rfl, hmid⟩

/-- The ledgers in the middle of a pass over the classes. -/
def passed (f : Ledger τ → Ledger τ) (todo : List String) (classes : String → Ledger τ) :
    String → Ledger τ :=
  fun typename => if typename ∈ todo then classes typename else f (classes typename)

omit [DecidableEq τ] in
/-- The turn of a class in a pass. -/
theorem update_passed (f : Ledger τ → Ledger τ) {todo : List String}
    (classes : String → Ledger τ) {typename : String} (h : typename ∉ todo) :
    Function.update (passed f (typename :: todo) classes) typename (f (classes typename)) =
      passed f todo classes := by
  funext other
  by_cases hother : other = typename
  · rw [hother, Function.update_self, passed, if_neg h]
  · rw [Function.update_of_ne hother, passed, passed]
    simp only [List.mem_cons, hother, false_or]

omit [DecidableEq τ] in
theorem passed_head {f : Ledger τ → Ledger τ} {todo : List String} {classes : String → Ledger τ}
    {typename : String} : passed f (typename :: todo) classes typename = classes typename :=
  if_pos List.mem_cons_self

/-- The rows of all classes are flushed. -/
theorem flushTypes_spec {classes : String → Ledger τ}
    (hsound : ∀ typename, (classes typename).Sound L (V typename)) :
    ∀ {todo : List (String × Dict Nat (Option Row))} {doomed : List SegmentName}
      {w : MirrorWorld τ κ}, (todo.map Prod.fst).Nodup →
      (∀ e ∈ todo, (classes e.1).pending = e.2) →
      Midway L (passed (Ledger.flush L mirror.params.maxSegments) (todo.map Prod.fst) classes)
        mirror doomed w →
      ∃ doomed' w', todo.foldlM (flushType L) doomed w = .ok doomed' w' ∧
        Midway L (fun typename => (classes typename).flush L mirror.params.maxSegments) mirror
          doomed' w' := by
  intro todo doomed w hnodup hpending h
  have hall := foldlM_run_ok (f := flushType L) (J := fun todo doomed w =>
    (todo.map Prod.fst).Nodup ∧ (∀ e ∈ todo, (classes e.1).pending = e.2) ∧
      Midway L (passed (Ledger.flush L mirror.params.maxSegments) (todo.map Prod.fst) classes)
        mirror doomed w) (fun e todo doomed w => ?_) ⟨hnodup, hpending, h⟩
  · rcases hall with ⟨doomed', w', hrun, -, -, hend⟩
    exact ⟨doomed', w', hrun, hend⟩
  · rintro ⟨hnodup, hpending, hmid⟩
    have hnew := (List.nodup_cons.mp hnodup).1
    have hone := flushType_spec (V := V) hmid (e := e)
    rw [List.map_cons, passed_head, update_passed _ _ hnew] at hone
    rcases hone (hpending e List.mem_cons_self) (hsound e.1) with ⟨doomed', w', hrun, hnext⟩
    exact ⟨doomed', w', hrun, (List.nodup_cons.mp hnodup).2,
      fun e' he' => hpending e' (List.mem_cons_of_mem e he'), hnext⟩

/-- The manifest moves, and then the doomed files go. -/
theorem commitManifest_spec (h : Midway L held mirror doomed w) :
    ∃ w', commitManifest doomed w = .ok () w' ∧ Midway L held mirror [] w' := by
  have hunlink : ∀ {doomed : List SegmentName} {w : MirrorWorld τ κ},
      Midway L held mirror doomed w →
      ∃ w', (doomed.forM fun name => onData (Cabinet.unlink name)) w = .ok () w' ∧
        Midway L held mirror [] w' := by
    intro doomed
    induction doomed with
    | nil => exact fun {w} h => ⟨w, rfl, h⟩
    | cons name doomed ih =>
        intro w h
        have hgone := (h.doomed name List.mem_cons_self).2
        have hnext : Midway L held mirror doomed
            { w with disk.data := w.disk.data.unlink name } := by
          refine h.onDisk (fun _ hother => List.mem_cons_of_mem name hother) h.left rfl ?_
          intro typename n hn
          refine Function.update_of_ne ?_ ..
          rintro rfl
          exact hgone hn
        rcases ih hnext with ⟨w', hrun, hend⟩
        refine ⟨w', ?_, hend⟩
        unfold onData at hrun ⊢
        rw [forM_cons_run, bind_run_ok (fileStep_run h.left)]
        exact hrun
  rcases writeManifest_run h.left with ⟨w₁, hmanifest, hleft, hmirror, hdata⟩
  have hmid : Midway L held mirror doomed w₁ :=
    h.onDisk (fun _ hname => hname) hleft hmirror fun _ _ _ => by rw [hdata]
  rcases hunlink hmid with ⟨w', hrun, hend⟩
  refine ⟨w', ?_, hend⟩
  unfold commitManifest
  rw [bind_run_ok hmanifest]
  exact hrun

end Flush

section Operations

variable {V : String → ColumnValues} {s : Ledgers τ} {w w' : MirrorWorld τ κ}

/-- A mirror between two operations stands for some ledgers, one for each class.
    What it counts is what they count, and the pending rows of a class are those of
    its ledger. -/
structure AtRest (L : Columnar τ κ) (V : String → ColumnValues) (s : Ledgers τ)
    (w : MirrorWorld τ κ) : Prop where
  left : w.left = none
  types : w.mirror.types = s.types
  watermark : w.mirror.watermark = s.watermark
  appliesSinceFlush : w.mirror.appliesSinceFlush = s.appliesSinceFlush
  holds : ∀ typename, ClassHolds L w.disk typename (w.mirror.state typename) (s.classes typename)
  pending : ∀ typename, w.mirror.pendingOf typename = (s.classes typename).pending
  sound : ∀ typename, (s.classes typename).Sound L (V typename)

/-- The table of every class is that of its ledger. -/
theorem AtRest.table (h : AtRest L V s w) (typename : String) :
    Mirror.table L typename w = .ok ((s.classes typename).table L) :=
  (h.holds typename).table (h.pending typename) (h.sound typename).widen.1

omit [DecidableEq τ] in
/-- Without pending rows a flush does nothing to a class. -/
theorem flush_of_none {g : Ledger τ} (h : g.pending = Dict.empty) (maxSegments : Nat) :
    g.flush L maxSegments = g := by
  unfold Ledger.flush
  rw [h]
  exact if_pos rfl

/-- A flush returns, and does to the ledgers what a flush does. -/
theorem flush_spec (h : AtRest L V s w) : ∃ w' tables, flush L w = .ok () w' ∧
    w'.mirror = { w.mirror with tables := tables, pending := Dict.empty, appliesSinceFlush := 0 } ∧
    AtRest L V (s.flush L w.mirror.params) w' := by
  have hpending : ∀ e ∈ w.mirror.pending.entries.insertionSort fun e e' => e.1 ≤ e'.1,
      (s.classes e.1).pending = e.2 := by
    intro e he
    have hget := (Dict.get?_eq_some_iff _ _ _).mpr ((List.mem_insertionSort _).mp he)
    rw [← h.pending, Mirror.pendingOf, Dict.getD, hget]
    rfl
  have hnodup : ((w.mirror.pending.entries.insertionSort fun e e' => e.1 ≤ e'.1).map
      Prod.fst).Nodup :=
    ((List.perm_insertionSort _ _).map Prod.fst).nodup_iff.mpr w.mirror.pending.nodup
  -- A class that has nothing pending is left out of the pass, and is flushed all the same.
  have hstart : passed (Ledger.flush L w.mirror.params.maxSegments)
      ((w.mirror.pending.entries.insertionSort fun e e' => e.1 ≤ e'.1).map Prod.fst) s.classes =
        s.classes := by
    funext typename
    unfold passed
    by_cases hmem : typename ∈ (w.mirror.pending.entries.insertionSort
        fun e e' => e.1 ≤ e'.1).map Prod.fst
    · rw [if_pos hmem]
    · rw [if_neg hmem]
      refine flush_of_none ?_ _
      rw [← h.pending, Mirror.pendingOf, Dict.getD,
        (Dict.not_mem_keys_iff _ _).mp fun hin => hmem ?_]
      · rfl
      · rcases List.mem_map.mp hin with ⟨e, he, rfl⟩
        exact List.mem_map_of_mem ((List.mem_insertionSort _).mpr he)
  have hmid : Midway L (passed (Ledger.flush L w.mirror.params.maxSegments)
      ((w.mirror.pending.entries.insertionSort fun e e' => e.1 ≤ e'.1).map Prod.fst) s.classes)
      w.mirror [] w := by
    rw [hstart]
    exact ⟨h.left, ⟨w.mirror.tables, rfl⟩, h.holds, fun _ hname => absurd hname List.not_mem_nil⟩
  rcases flushTypes_spec h.sound hnodup hpending hmid with ⟨doomed, w₁, hrun, hmid₁⟩
  rcases commitManifest_spec hmid₁ with ⟨w₂, hcommit, hmid₂⟩
  rcases hmid₂.same with ⟨tables, htables⟩
  refine ⟨{ w₂ with mirror.pending := Dict.empty, mirror.appliesSinceFlush := 0 }, tables,
    ?_, ?_, ?_⟩
  · unfold flush
    rw [bind_run_ok (get_run w), bind_run_ok hrun, bind_run_ok hcommit]
    rfl
  · rw [htables]
  · refine ⟨hmid₂.left, ?_, ?_, rfl, hmid₂.holds, fun typename => ?_, fun typename => ?_⟩
    · rw [htables]
      exact h.types
    · rw [htables]
      exact h.watermark
    · exact (Ledger.pending_flush _).symm
    · exact (h.sound typename).flush _

/-- A compaction returns, and does to the ledgers what a compaction does. -/
theorem compact_spec (h : AtRest L V s w) : ∃ w' tables, compact L w = .ok () w' ∧
    w'.mirror = { w.mirror with tables := tables, pending := Dict.empty, appliesSinceFlush := 0 } ∧
    AtRest L V (s.compact L w.mirror.params) w' := by
  rcases flush_spec h with ⟨w₁, tables₁, hflush, hmirror₁, hrest₁⟩
  -- The classes the mirror has no segments of have none to fold.
  have hstart : passed Ledger.compact w₁.mirror.tables.keys (s.flush L w.mirror.params).classes =
      (s.flush L w.mirror.params).classes := by
    funext typename
    unfold passed
    by_cases hmem : typename ∈ w₁.mirror.tables.keys
    · rw [if_pos hmem]
    · rw [if_neg hmem]
      have hcount := (hrest₁.holds typename).count
      rw [Mirror.state, Dict.getD, (Dict.not_mem_keys_iff _ _).mp hmem] at hcount
      unfold Ledger.compact
      rw [← hcount]
      exact if_pos (Nat.zero_le 1)
  have hfold : ∃ doomed w₂, w₁.mirror.tables.keys.foldlM (m := EStateM MirrorErr (MirrorWorld τ κ))
      (fun doomed typename => do
        let w ← get
        if (w.mirror.state typename).segments.length ≤ 1 then pure doomed
        else
          let obsolete ← compactType L typename
          pure (doomed ++ obsolete)) [] w₁ = .ok doomed w₂ ∧
        ([] : List String).Nodup ∧
        Midway L (passed Ledger.compact [] (s.flush L w.mirror.params).classes) w₁.mirror doomed
          w₂ := by
    refine foldlM_run_ok (J := fun todo doomed u => todo.Nodup ∧
      Midway L (passed Ledger.compact todo (s.flush L w.mirror.params).classes) w₁.mirror doomed u)
      ?_ ⟨w₁.mirror.tables.nodup, ?_⟩
    · rintro typename todo doomed u ⟨hnodup, hu⟩
      have hnew := (List.nodup_cons.mp hnodup).1
      have hcount := (hu.holds typename).count
      rw [passed_head] at hcount
      have hturn := update_passed Ledger.compact (s.flush L w.mirror.params).classes hnew
      rw [bind_run_ok (get_run u), hcount]
      by_cases hfew : ((s.flush L w.mirror.params).classes typename).segments ≤ 1
      · have hone : ((s.flush L w.mirror.params).classes typename).compact =
            (s.flush L w.mirror.params).classes typename := if_pos hfew
        rw [hone, Function.update_eq_self_iff.mpr passed_head.symm] at hturn
        rw [if_pos hfew, ← hturn]
        exact ⟨doomed, u, rfl, (List.nodup_cons.mp hnodup).2, hu⟩
      · have hone : ((s.flush L w.mirror.params).classes typename).compact =
            ((s.flush L w.mirror.params).classes typename).fold := if_neg hfew
        rw [hone] at hturn
        rw [if_neg hfew, ← hturn]
        rcases compactType_spec hu typename with ⟨obsolete, u', hrun, hu'⟩
        rw [passed_head] at hu'
        refine ⟨doomed ++ obsolete, u', ?_, (List.nodup_cons.mp hnodup).2, hu'⟩
        rw [bind_run_ok hrun]
        rfl
    · rw [hstart]
      exact ⟨hrest₁.left, ⟨w₁.mirror.tables, rfl⟩, hrest₁.holds,
        fun _ hname => absurd hname List.not_mem_nil⟩
  rcases hfold with ⟨doomed, w₂, hrun, -, hmid₂⟩
  rcases commitManifest_spec hmid₂ with ⟨w₃, hcommit, hmid₃⟩
  rcases hmid₃.same with ⟨tables, htables⟩
  have hmirror : w₃.mirror = { w.mirror with
      tables := tables, pending := Dict.empty, appliesSinceFlush := 0 } := by
    rw [htables, hmirror₁]
  refine ⟨w₃, tables, ?_, hmirror, hmid₃.left, ?_, ?_, ?_, hmid₃.holds, fun typename => ?_,
    fun typename => ?_⟩
  · unfold compact
    rw [bind_run_ok hflush, bind_run_ok (get_run w₁), bind_run_ok hrun]
    exact hcommit
  · rw [hmirror]
    exact h.types
  · rw [hmirror]
    exact h.watermark
  · rw [hmirror]
    rfl
  · have hnone : ((s.flush L w.mirror.params).classes typename).pending = Dict.empty :=
      Ledger.pending_flush _
    change _ = ((s.flush L w.mirror.params).classes typename).compact.pending
    rw [hmirror]
    unfold Ledger.compact
    split
    · exact hnone.symm
    · exact hnone.symm
  · exact ((h.sound typename).flush _).compact

/-- The rows that an operation brings can be taken. -/
def MirrorOp.Recordable (V : String → ColumnValues) (types : Types) (m : Mirror τ) :
    MirrorOp → Prop
  | .apply d => m.accepts types d = true →
      ∀ batch, decodeOps types m.only (learn m.types d.types) d.ops = .ok batch →
      ∀ typename oid row, (typename, oid, some row) ∈ batch →
        ∀ name v, row.get? name = some v → V typename name v ∧ name ≠ oidCol ∧ name ≠ deletedCol
  | .flush => True
  | .compact => True

omit [DecidableEq τ] in
/-- What a mirror asks of a delta. -/
theorem accepts_iff (m : Mirror τ) (d : Delta) : m.accepts types d = true ↔
    checkDeltaHeader d = .ok () ∧ d.tid = m.watermark + 1 ∧
      ∃ batch, decodeOps types m.only (learn m.types d.types) d.ops = .ok batch := by
  unfold Mirror.accepts
  rw [decide_eq_true_iff]
  refine and_congr_right fun _ => and_congr_right fun _ => ?_
  cases decodeOps types m.only (learn m.types d.types) d.ops with
  | ok batch => exact ⟨fun _ => ⟨batch, rfl⟩, fun _ => rfl⟩
  | error e => exact ⟨(fun h => nomatch h), (fun ⟨_, h⟩ => nomatch h)⟩

/-- A mirror that has taken in the rows of a delta, and not flushed. -/
def takenIn (d : Delta) (batch : List (String × Nat × Option Row)) (w : MirrorWorld τ κ) :
    MirrorWorld τ κ :=
  { w with
    mirror := { w.mirror with
      types := learn w.mirror.types d.types
      pending := batch.foldl addPending w.mirror.pending
      watermark := d.tid
      appliesSinceFlush := w.mirror.appliesSinceFlush + 1 } }

omit [DecidableEq τ] in
/-- Rows become pending in the ledgers as they do in the mirror, and nothing else changes. -/
theorem places_spec (batch : List (String × Nat × Option Row)) :
    ∀ (classes : String → Ledger τ) (pending : Dict String (Dict Nat (Option Row))),
      (∀ typename, pending.getD typename Dict.empty = (classes typename).pending) →
      ∀ typename,
        (batch.foldl addPending pending).getD typename Dict.empty =
            (batch.foldl Ledgers.place classes typename).pending ∧
          { batch.foldl Ledgers.place classes typename with
            pending := (classes typename).pending } = classes typename := by
  induction batch with
  | nil => exact fun _ _ h typename => ⟨h typename, rfl⟩
  | cons e batch ih =>
      intro classes pending h typename
      have hone : ∀ other, (addPending pending e).getD other Dict.empty =
          (Ledgers.place classes e other).pending := by
        intro other
        unfold addPending Ledgers.place
        by_cases hclass : other = e.1
        · rw [hclass, Function.update_self, Dict.getD, Dict.get?_set_self, h]
          rfl
        · rw [Function.update_of_ne hclass, Dict.getD, Dict.get?_set_ne _ _ hclass]
          exact h other
      have hrest := ih _ _ hone typename
      refine ⟨hrest.1, ?_⟩
      have hfirst : { Ledgers.place classes e typename with
          pending := (classes typename).pending } = classes typename := by
        unfold Ledgers.place
        by_cases hclass : typename = e.1
        · rw [hclass, Function.update_self]
          rfl
        · rw [Function.update_of_ne hclass]
      rw [← hfirst]
      exact congrArg (fun g : Ledger τ => { g with pending := (classes typename).pending }) hrest.2

/-- The rows of a delta are pending. -/
theorem AtRest.takenIn (h : AtRest L V s w) {d : Delta}
    {batch : List (String × Nat × Option Row)} (haccepts : w.mirror.accepts types d = true)
    (hbatch : decodeOps types w.mirror.only (learn w.mirror.types d.types) d.ops = .ok batch)
    (hd : (MirrorOp.apply d).Recordable V types w.mirror) :
    AtRest L V (s.takeIn d batch) (takenIn d batch w) where
  left := h.left
  types := congrArg (learn · d.types) h.types
  watermark := rfl
  appliesSinceFlush := congrArg (· + 1) h.appliesSinceFlush
  holds typename := by
    have hkept := (places_spec batch s.classes w.mirror.pending h.pending typename).2
    have hholds := h.holds typename
    rw [← hkept] at hholds
    exact { hholds with }
  pending typename := (places_spec batch s.classes w.mirror.pending h.pending typename).1
  sound := sound_places batch (hd haccepts batch hbatch) s.classes h.sound

/-- What a delta that is accepted does to the ledgers. -/
theorem AtRest.apply_ledgers (h : AtRest L V s w) {d : Delta}
    {batch : List (String × Nat × Option Row)} (haccepts : w.mirror.accepts types d = true)
    (hbatch : decodeOps types w.mirror.only (learn w.mirror.types d.types) d.ops = .ok batch) :
    s.apply L types w.mirror.params w.mirror.only d =
      if w.mirror.params.flushEvery ≤ w.mirror.appliesSinceFlush + 1 then
        (s.takeIn d batch).flush L w.mirror.params
      else s.takeIn d batch := by
  rcases (accepts_iff w.mirror d).mp haccepts with ⟨hheader, hnext, -⟩
  unfold Ledgers.apply
  rw [← h.watermark, ← h.types, if_pos ⟨hheader, hnext⟩, hbatch, h.appliesSinceFlush]
  rfl

/-- A delta that is accepted is taken in, and does to the ledgers what a delta does. -/
theorem apply_spec (h : AtRest L V s w) {d : Delta} (haccepts : w.mirror.accepts types d = true)
    (hd : (MirrorOp.apply d).Recordable V types w.mirror) :
    ∃ w', Mirror.apply L types d w = .ok true w' ∧
      w'.mirror.only = w.mirror.only ∧ w'.mirror.params = w.mirror.params ∧
      AtRest L V (s.apply L types w.mirror.params w.mirror.only d) w' := by
  rcases (accepts_iff w.mirror d).mp haccepts with ⟨hheader, hnext, batch, hbatch⟩
  have htaken := h.takenIn haccepts hbatch hd
  have hcheck : (ofExcept ((checkDeltaHeader d).mapError .delta) :
      EStateM MirrorErr (MirrorWorld τ κ) Unit) w = .ok () w := by
    rw [hheader]
    rfl
  have hs := h.apply_ledgers haccepts hbatch
  unfold Mirror.apply
  rw [bind_run_ok hcheck, bind_run_ok (get_run w), if_neg (by omega), if_neg (not_not.mpr hnext),
    bind_run_ok (ofExcept_run_ok hbatch w), bind_run_ok (set_run _ w), hs]
  by_cases hdue : w.mirror.params.flushEvery ≤ w.mirror.appliesSinceFlush + 1
  · rcases flush_spec htaken with ⟨w', tables, hflush, hmirror, hrest⟩
    rw [if_pos hdue, if_pos hdue]
    refine ⟨w', bind_run_ok hflush, ?_, ?_, hrest⟩
    · rw [hmirror]
      rfl
    · rw [hmirror]
      rfl
  · rw [if_neg hdue, if_neg hdue]
    exact ⟨DataCrystal.takenIn d batch w, rfl, rfl, rfl, htaken⟩

/-- Any other delta leaves the mirror as it is. -/
theorem apply_refused {d : Delta} (h : w.mirror.accepts types d = false) :
    finalState (Mirror.apply L types d w) = w := by
  have hnot := (@accepts_iff _ types w.mirror d).not.mp (by rw [h]; exact Bool.false_ne_true)
  unfold Mirror.apply
  cases hheader : checkDeltaHeader d with
  | error e => rfl
  | ok u =>
      have hcheck : (ofExcept ((Except.ok u : Except DeltaErr Unit).mapError MirrorErr.delta) :
          EStateM MirrorErr (MirrorWorld τ κ) Unit) w = .ok () w := rfl
      rw [bind_run_ok hcheck, bind_run_ok (get_run w)]
      by_cases hold : d.tid ≤ w.mirror.watermark
      · rw [if_pos hold]
        rfl
      · rw [if_neg hold]
        by_cases hnext : d.tid = w.mirror.watermark + 1
        · rw [if_neg (not_not.mpr hnext)]
          cases hbatch : decodeOps types w.mirror.only (learn w.mirror.types d.types) d.ops with
          | ok batch => exact absurd ⟨hheader, hnext, batch, hbatch⟩ hnot
          | error e => rfl
        · rw [if_pos hnext]
          rfl

/-- Such a delta leaves the ledgers as well. -/
theorem apply_ledgers_refused (h : AtRest L V s w) {d : Delta}
    (hrefused : w.mirror.accepts types d = false) :
    s.apply L types w.mirror.params w.mirror.only d = s := by
  have hnot := (@accepts_iff _ types w.mirror d).not.mp
    (by rw [hrefused]; exact Bool.false_ne_true)
  unfold Ledgers.apply
  rw [← h.watermark, ← h.types]
  by_cases hnext : checkDeltaHeader d = .ok () ∧ d.tid = w.mirror.watermark + 1
  · rw [if_pos hnext]
    cases hbatch : decodeOps types w.mirror.only (learn w.mirror.types d.types) d.ops with
    | ok batch => exact absurd ⟨hnext.1, hnext.2, batch, hbatch⟩ hnot
    | error e => rfl
  · exact if_neg hnext

end Operations

section Runs

variable {V : String → ColumnValues} {params : MirrorParams} {only : Option (List String)}
  {s : Ledgers τ} {r : MirrorRun τ κ}

/-- A mirror that is in use: it stands for some ledgers, and their rows are those of the deltas
    it has taken. -/
structure MirrorRun.InUse (L : Columnar τ κ) (V : String → ColumnValues) (types : Types)
    (params : MirrorParams) (only : Option (List String)) (s : Ledgers τ) (r : MirrorRun τ κ) :
    Prop where
  rest : AtRest L V s r.world
  params : r.world.mirror.params = params
  mirrored : r.world.mirror.only = only
  lineage : s.types = (Folded.ofDeltas types only r.taken).types
  rows : ∀ typename oid, (s.classes typename).plain oid =
    ((Folded.ofDeltas types only r.taken).tables typename).get? oid

theorem start_inUse (params : MirrorParams) :
    (MirrorRun.start params only : MirrorRun τ κ).InUse L V types params only {} where
  rest :=
    { left := rfl
      types := rfl
      watermark := rfl
      appliesSinceFlush := rfl
      holds := fun _ => ⟨rfl, rfl, ⟨[], .nil, fun _ => rfl⟩, fun _ hn => absurd hn List.not_mem_nil⟩
      pending := fun _ => rfl
      sound := fun _ => ⟨(fun _ _ h => nomatch h), (fun _ _ h => nomatch h),
        fun _ hrow => absurd hrow List.not_mem_nil⟩ }
  params := rfl
  mirrored := rfl
  lineage := rfl
  rows _ _ := rfl

/-- A flush or a compaction: no delta is taken. -/
theorem MirrorRun.InUse.onWorld (h : r.InUse L V types params only s) {w : MirrorWorld τ κ}
    {s' : Ledgers τ} {tables : Dict String (TableState τ)} (hrest : AtRest L V s' w)
    (hmirror : w.mirror = { r.world.mirror with
      tables := tables, pending := Dict.empty, appliesSinceFlush := 0 })
    (htypes : s'.types = s.types)
    (hrows : ∀ typename oid, (s'.classes typename).plain oid = (s.classes typename).plain oid) :
    MirrorRun.InUse L V types params only s' { r with world := { w with left := none } } := by
  have hleft : { w with left := none } = w := by
    rw [← hrest.left]
  refine ⟨?_, ?_, ?_, htypes.trans h.lineage, fun typename oid => ?_⟩
  · rw [hleft]
    exact hrest
  · change w.mirror.params = _
    rw [hmirror]
    exact h.params
  · change w.mirror.only = _
    rw [hmirror]
    exact h.mirrored
  · rw [hrows]
    exact h.rows typename oid

/-- What an operation does to a mirror in use, and to its ledgers. -/
theorem MirrorRun.InUse.act (h : r.InUse L V types params only s) {o : MirrorOp}
    (ho : o.Recordable V types r.world.mirror) :
    (r.act L types o none).InUse L V types params only (s.act L types params only o) := by
  have hworld : { r.world with left := none } = r.world := by
    rw [← h.rest.left]
  unfold MirrorRun.act
  rw [hworld]
  cases o with
  | apply d =>
      cases haccepts : r.world.mirror.accepts types d with
      | false =>
          have hrun : finalState ((MirrorOp.apply d).run L types r.world) = r.world := by
            have hsame := apply_refused (L := L) haccepts
            change finalState ((Mirror.apply L types d >>= fun _ => pure ()) r.world) = _
            rw [bind_run]
            cases hres : Mirror.apply L types d r.world with
            | ok b w' => exact (congrArg finalState hres).symm.trans hsame
            | error e w' => exact (congrArg finalState hres).symm.trans hsame
          have htaken : (MirrorOp.apply d).taken types r.world.mirror = [] := by
            unfold MirrorOp.taken
            dsimp only
            rw [haccepts]
            rfl
          have hledgers : s.act L types params only (.apply d) = s := by
            have hsame := apply_ledgers_refused (L := L) h.rest haccepts
            rw [h.params, h.mirrored] at hsame
            exact hsame
          dsimp only
          rw [hrun, hworld, htaken, List.append_nil, hledgers]
          exact h
      | true =>
          rcases (accepts_iff r.world.mirror d).mp haccepts with ⟨-, -, batch, hbatch⟩
          rcases apply_spec h.rest haccepts ho with ⟨w', hrun, honly, hparams, hrest⟩
          have hledgers := h.rest.apply_ledgers haccepts hbatch
          rw [h.params, h.mirrored] at hrest hledgers
          have hfinal : finalState ((MirrorOp.apply d).run L types r.world) = w' := by
            change finalState ((Mirror.apply L types d >>= fun _ => pure ()) r.world) = _
            rw [bind_run_ok hrun]
            rfl
          have htaken : (MirrorOp.apply d).taken types r.world.mirror = [d] := by
            unfold MirrorOp.taken
            dsimp only
            rw [haccepts]
            rfl
          have hstep : Folded.ofDeltas types only (r.taken ++ [d]) =
              ⟨learn r.world.mirror.types d.types,
                batch.foldl Folded.place (Folded.ofDeltas types only r.taken).tables⟩ :=
            ofDeltas_snoc (h.rest.types.trans h.lineage) h.mirrored hbatch
          have hleft : { w' with left := none } = w' := by
            rw [← hrest.left]
          -- A flush behind the delta changes neither the lineages nor the rows.
          have hplain := plain_places batch s.classes _ h.rows
          dsimp only
          rw [hfinal, hleft, htaken]
          refine ⟨hrest, hparams.trans h.params, honly.trans h.mirrored, ?_, fun typename oid => ?_⟩
          · rw [hstep, h.rest.types]
            change (s.apply L types params only d).types = _
            rw [hledgers]
            split <;> rfl
          · rw [hstep]
            change ((s.apply L types params only d).classes typename).plain oid = _
            rw [hledgers, ← hplain typename oid]
            split
            · exact Ledger.plain_flush _ oid
            · rfl
  | flush =>
      rcases flush_spec h.rest with ⟨w', tables, hrun, hmirror, hrest⟩
      rw [h.params] at hrest
      change MirrorRun.InUse L V types params only (s.flush L params) { r with
        world := { finalState (flush L r.world) with left := none }, taken := r.taken ++ [] }
      rw [hrun, List.append_nil]
      exact h.onWorld hrest hmirror rfl fun typename oid => Ledger.plain_flush _ oid
  | compact =>
      rcases compact_spec h.rest with ⟨w', tables, hrun, hmirror, hrest⟩
      rw [h.params] at hrest
      change MirrorRun.InUse L V types params only (s.compact L params) { r with
        world := { finalState (compact L r.world) with left := none }, taken := r.taken ++ [] }
      rw [hrun, List.append_nil]
      exact h.onWorld hrest hmirror rfl fun typename oid =>
        (Ledger.plain_compact oid).trans (Ledger.plain_flush _ oid)

/-- A mirror stays in use, and the ledgers go along with it. -/
theorem MirrorRun.InUse.run {ops : List MirrorOp} :
    ∀ {s : Ledgers τ} {r : MirrorRun τ κ}, r.InUse L V types params only s →
      EachStep (fun r o => MirrorRun.act L types o none r)
        (fun r o => o.Recordable V types r.world.mirror) r ops →
      (ops.foldl (fun r o => MirrorRun.act L types o none r) r).InUse L V types params only
        (ops.foldl (Ledgers.act L types params only) s) := by
  induction ops with
  | nil => exact fun h _ => h
  | cons o ops ih => exact fun h hops => ih (h.act hops.1) hops.2

omit [DecidableEq τ] in
/-- Any values can be taken under names that are not reserved. -/
theorem recordable_any {m : Mirror τ} {d : Delta}
    (h : ∀ batch ∈ (decodeOps types m.only (learn m.types d.types) d.ops).toOption,
      ∀ e ∈ batch, ∀ row ∈ e.2.2, ∀ name ∈ row.keys, name ≠ oidCol ∧ name ≠ deletedCol) :
    (MirrorOp.apply d).Recordable (fun _ _ _ => True) types m := by
  intro _ batch hbatch typename oid row hmem name v hget
  refine ⟨trivial, h batch ?_ _ hmem row rfl name ((Dict.mem_keys_iff _ _).mpr ⟨v, hget⟩)⟩
  rw [hbatch]
  rfl

/-- The table of a class is that of the ledger the operations make: the live rows by OID, each
    with the cells of its history. They are those of its values if stored values can be stored
    again. No flush and no compaction changes a table, and neither does what a delta brings on. -/
theorem mirror_shows_folded (L : Columnar τ κ) (V : String → ColumnValues) (types : Types)
    (params : MirrorParams) (only : Option (List String)) (ops : List MirrorOp)
    (hops : EachStep (fun r o => MirrorRun.act L types o none r)
      (fun r o => o.Recordable V types r.world.mirror) (MirrorRun.start params only) ops) :
    let r := ops.foldl (fun r o => MirrorRun.act L types o none r) (MirrorRun.start params only)
    let s := ops.foldl (Ledgers.act L types params only) {}
    (∀ typename, Mirror.table L typename r.world = .ok ((s.classes typename).table L) ∧
      List.Forall₂ ((s.classes typename).Shows L) ((s.classes typename).table L).2
        (sortByKey ((Folded.ofDeltas types only r.taken).tables typename).entries) ∧
      ((∀ name, Rereads L (V typename name)) →
        ((s.classes typename).table L).2 = Mirror.rendered L ((s.classes typename).table L).1
          ((Folded.ofDeltas types only r.taken).tables typename))) ∧
    (∃ w, Mirror.flush L r.world = .ok () w ∧
      ∀ typename, Mirror.table L typename w = Mirror.table L typename r.world) ∧
    (∃ w, Mirror.compact L r.world = .ok () w ∧
      ∀ typename, Mirror.table L typename w = Mirror.table L typename r.world) ∧
    ∀ d, (MirrorOp.apply d).Recordable V types r.world.mirror →
      r.world.mirror.accepts types d = true →
      ∃ shown : String → Except MirrorErr (Dict String τ × List (Nat × List (String × κ))),
      ∀ params', ∃ w,
        Mirror.apply L types d { r.world with mirror.params := params' } = .ok true w ∧
        ∀ typename, Mirror.table L typename w = shown typename := by
  have hstart : (MirrorRun.start params only : MirrorRun τ κ).InUse L V types params only {} :=
    start_inUse params
  have h := hstart.run hops
  dsimp only
  generalize ops.foldl (fun r o => MirrorRun.act L types o none r) (MirrorRun.start params only) = r
    at h ⊢
  generalize ops.foldl (Ledgers.act L types params only) {} = s at h ⊢
  refine ⟨fun typename => ⟨h.rest.table typename, ?_, fun hreread => ?_⟩, ?_, ?_,
    fun d hd haccepts => ?_⟩
  · exact Ledger.table_rows (h.rows typename)
  · exact (h.rest.sound typename).table hreread (h.rows typename)
  · rcases flush_spec h.rest with ⟨w, -, hrun, -, hrest⟩
    refine ⟨w, hrun, fun typename => ?_⟩
    rw [hrest.table, h.rest.table]
    exact congrArg Except.ok (Ledger.table_flush _)
  · rcases compact_spec h.rest with ⟨w, -, hrun, -, hrest⟩
    refine ⟨w, hrun, fun typename => ?_⟩
    rw [hrest.table, h.rest.table]
    exact congrArg Except.ok
      ((Ledger.table_compact (Ledger.pending_flush _)).trans (Ledger.table_flush _))
  · rcases (accepts_iff r.world.mirror d).mp haccepts with ⟨-, -, batch, hbatch⟩
    refine ⟨fun typename => .ok (((s.takeIn d batch).classes typename).table L), fun params' => ?_⟩
    -- The thresholds say when to flush, and nothing about what there is.
    have htuned : AtRest L V s { r.world with mirror.params := params' } := { h.rest with }
    rcases apply_spec htuned haccepts hd with ⟨w, hrun, -, -, hrest⟩
    have hledgers := htuned.apply_ledgers haccepts hbatch
    refine ⟨w, hrun, fun typename => ?_⟩
    rw [hrest.table, hledgers]
    split
    · exact congrArg Except.ok (Ledger.table_flush _)
    · rfl

/-- Two notes, one of them flushed, and the table of both before and after a compaction. -/
theorem mirror_shows_notes :
    let ops : List MirrorOp := [.apply (noteDelta 1), .flush, .apply (noteDelta 2)]
    let r := ops.foldl (fun r o => MirrorRun.act noteColumns (fun _ => none) o none r)
      (MirrorRun.start {} none)
    r.taken = [noteDelta 1, noteDelta 2] ∧
    (∃ columns, Mirror.table noteColumns "Note" r.world = .ok (columns,
      Mirror.rendered noteColumns columns
        ((Folded.ofDeltas (fun _ => none) none r.taken).tables "Note"))) ∧
    ∃ w, Mirror.compact noteColumns r.world = .ok () w ∧
      Mirror.table noteColumns "Note" w = Mirror.table noteColumns "Note" r.world := by
  have h := mirror_shows_folded noteColumns (fun _ _ _ => True) (fun _ => none) {} none
    [.apply (noteDelta 1), .flush, .apply (noteDelta 2)]
    ⟨recordable_any (by decide +kernel), trivial, recordable_any (by decide +kernel), trivial⟩
  dsimp only at h ⊢
  rcases h with ⟨htable, -, ⟨w, hcompact, hshown⟩, -⟩
  refine ⟨by decide +kernel, ?_, w, hcompact, hshown "Note"⟩
  rcases htable "Note" with ⟨hread, -, hrows⟩
  exact ⟨_, by rw [hread, ← hrows fun _ => noteColumns_rereads _]⟩

end Runs

section Arrow

/-- The columns of an Arrow table, for records whose values decode to those of a column. The
    cells are what the format is given, or the exception that storing a value raises. -/
def arrowColumns (textOf : Leaf → Text) (decoded : Val Token → Decoded)
    (value : Decoded → Val Token) (hdecoded : decoded .none = .leaf .none)
    (hvalue : value (.leaf .none) = .none) : Columnar Tag (Except ColumnErr Stored) where
  null := .null
  tagOf v := DataCrystal.tagOf (decoded v)
  unify := DataCrystal.unify
  nullCell := .ok .absent
  storable tag v := DataCrystal.storable textOf tag (decoded v)
  semantic tag cell :=
    match cell >>= DataCrystal.semantic tag with
    | .ok v => value v
    -- A cell that was stored can be read.
    | .error _ => .none
  storable_none tag := by
    rw [hdecoded]
    cases tag <;> rfl
  semantic_null tag := by
    have hread : (Except.ok Stored.absent >>= DataCrystal.semantic tag :
        Except ColumnErr Decoded) = .ok (.leaf .none) := by
      cases tag <;> rfl
    rw [hread]
    exact hvalue

/-- Truth values, integers and texts, as they are decoded. -/
def plainDecoded : Val Token → Decoded
  | .scalar (.num .bool (.fin q)) => .leaf (.bool (q ≠ 0))
  | .scalar (.num .int (.fin q)) => .leaf (.int q.num)
  | .scalar (.str s) => .leaf (.str s.toList)
  | _ => .leaf .none

/-- And back. -/
def plainValue : Decoded → Val Token
  | .leaf (.bool b) => .bool b
  | .leaf (.int i) => .int i
  | .leaf (.str s) => .scalar (.str (String.ofList s))
  | _ => .none

/-- The columns for such values. None of them is a key of a dictionary. -/
def plainColumns : Columnar Tag (Except ColumnErr Stored) :=
  arrowColumns (fun _ => []) plainDecoded plainValue rfl rfl

/-- An object with one field, in a class that nothing declares. -/
def flagDelta (n : Nat) (v : Val Token) : Delta where
  tid := n
  actor := 1
  ops := [{ kind := .upsert, oid := 10 + n, cid := 1, payload := some [v], prior := none }]
  types := if n = 1 then [(1, "Flag", ["v"])] else []
  rootOid := none

/-- A number, a truth value and a text. -/
def flagOps : List MirrorOp :=
  [.apply (flagDelta 1 (.int 1)), .apply (flagDelta 2 (.bool true)),
    .apply (flagDelta 3 (.scalar (.str "")))]

/-- The messages in the cells of some rows: those of scalars. -/
def messages (rows : List (Nat × List (String × Except ColumnErr Stored))) :
    List (Nat × List (String × Option WireLeaf)) :=
  rows.map fun r => (r.1, r.2.map fun c => (c.1,
    match c.2 with
    | .ok (.message (.leaf w)) => some w
    | _ => none))

/-- A mirror that flushes every delta writes the truth value among integers, which makes it
    one, and then a text comes into the column. The column is of messages from then on, and the
    row has that of the integer. One flush for all three deltas writes that of the truth value,
    which is what the column's last tag makes of it. -/
theorem mirror_reencodes :
    let run (params : MirrorParams) :=
      flagOps.foldl (fun r o => MirrorRun.act plainColumns (fun _ => none) o none r)
        (MirrorRun.start params none)
    let table (params : MirrorParams) := Mirror.table plainColumns "Flag" (run params).world
    let latest := messages (Mirror.rendered plainColumns (Dict.ofList [("v", .fallback)])
      ((Folded.ofDeltas (fun _ => none) none (run {}).taken).tables "Flag"))
    (run {}).taken.length = 3 ∧
    (table {}).map Prod.fst = .ok (Dict.ofList [("v", .fallback)]) ∧
    (table {}).map (messages ∘ Prod.snd) =
      .ok [(11, [("v", some (.int 1))]), (12, [("v", some (.int 1))]), (13, [("v", some (.str []))])] ∧
    latest = [(11, [("v", some (.int 1))]), (12, [("v", some (.bool true))]),
      (13, [("v", some (.str []))])] ∧
    (table { flushEvery := 3 }).map (messages ∘ Prod.snd) = .ok latest := by
  refine ⟨?_, ?_, ?_, ?_, ?_⟩
  · decide +kernel
  · decide +kernel
  · decide +kernel
  · decide +kernel
  · decide +kernel

end Arrow

end DataCrystal
