import DataCrystal.MirrorRows
import Mathlib.Data.List.Forall2

/-!
# What the Files of a Mirror Hold

The invariant that ties a mirror to its files. It is about two things at once.
In memory, the segments of a class with its pending rows on top stand for the
rows of the class; that stays true when the pending rows are written to a
segment, and when segments are folded. On disk, each of the two manifests a crash
may leave names segments that stand for the deltas it goes up to. A new file
takes a number above all of these.

A flush has to write the pending rows of every class before its manifest stands
for all deltas. `Absorbing` keeps account of the classes that are done, and of
the files that may go when the manifest has moved.

## Main definitions

* `Filed`: A segment file that can be read.
* `ClassOk`, `Stands`: The segments of a class, and what they stand for.
* `Committed`, `Recoverable`: A manifest, and the deltas it goes up to.
* `MirrorOk`: The invariant of a mirror.
* `Absorbing`, `Ended`: A mirror in the middle of a flush, and after it.

## Theorems

* `MirrorOk.onFree`, `MirrorOk.setState`: Work that keeps the invariant.
* `Stands.push`, `Stands.fold`: Writing rows to a new file, and folding files.
-/

namespace DataCrystal

open Mirror

variable {τ κ : Type} [DecidableEq τ] {L : Columnar τ κ} {V : String → ColumnValues}
  {types : Types} {only : Option (List String)}

/-- A segment file that can be read, and was synced unless compaction wrote it. -/
def Filed (disk : MirrorDisk τ κ) (name : SegmentName) (t : SegmentTable τ κ) : Prop :=
  ∃ f, disk.data name = some f ∧ f.content = some t ∧ (f.synced = true ∨ name ∈ disk.folded)

/-- The segments of a class and the rows they hold. Each of them is a file with the
    cells of its rows under columns the present ones have widened, so it can be read
    again, and the next number is free. -/
structure ClassOk (L : Columnar τ κ) (V : String → ColumnValues) (disk : MirrorDisk τ κ)
    (typename : String) (st : TableState τ) (parts : List (Dict Nat (Option Row))) : Prop where
  stored : List.Forall₂ (fun n rows => ∃ t, Filed disk (typename, n) t ∧
    SegmentOk L (V typename) st.columns t rows) st.segments parts
  reached : Reached L (V typename) st.columns
  below : ∀ n ∈ st.segments, n < st.nextSegment

/-- A class whose segments, with these rows on top, stand for a table: the newest
    row of an OID is the one in the table, and a tombstone says that there is none.
    -/
def Stands (L : Columnar τ κ) (V : String → ColumnValues) (disk : MirrorDisk τ κ)
    (typename : String) (st : TableState τ) (recent : Dict Nat (Option Row))
    (table : Dict Nat Row) : Prop :=
  ∃ parts, ClassOk L V disk typename st parts ∧
    ∀ oid, live (parts ++ [recent]) oid = table.get? oid

/-- What may be committed stands for the deltas it goes up to: its watermark counts
    them, its shapes are theirs, and its segments hold the rows they fold to. -/
structure Committed (L : Columnar τ κ) (V : String → ColumnValues) (types : Types)
    (only : Option (List String)) (disk : MirrorDisk τ κ) (m : MirrorManifest τ)
    (kept : List Delta) : Prop where
  format : m.format = mirrorFormat
  version : m.version = mirrorVersion
  watermark : m.watermark = kept.length
  lineage : m.types = (Folded.ofDeltas types only kept).types
  rows : ∀ typename, Stands L V disk typename (m.tables.getD typename {}) Dict.empty
    ((Folded.ofDeltas types only kept).tables typename)

/-- A manifest a crash may leave: it stands for some of the deltas, and names no
    file that will be written. -/
structure Recoverable (L : Columnar τ κ) (V : String → ColumnValues) (types : Types)
    (only : Option (List String)) (taken : List Delta) (w : MirrorWorld τ κ)
    (slot : Option (MirrorManifest τ)) : Prop where
  mirrored : ∀ m, slot = some m → m.only = only
  committed : ∃ kept rest, taken = kept ++ rest ∧
    Committed L V types only w.disk (slot.getD {}) kept
  below : ∀ typename, ((slot.getD {}).tables.getD typename {}).nextSegment ≤
    (w.mirror.state typename).nextSegment

/-- The invariant of a mirror that was given some deltas: its files and its pending
    rows stand for all of them, and each manifest a crash may leave stands for the
    first of them. -/
structure MirrorOk (L : Columnar τ κ) (V : String → ColumnValues) (types : Types)
    (only : Option (List String)) (taken : List Delta) (w : MirrorWorld τ κ) : Prop where
  tids : Numbered 0 taken
  mirrored : w.mirror.only = only
  lineage : w.mirror.types = (Folded.ofDeltas types only taken).types
  watermark : w.mirror.watermark = taken.length
  rows : ∀ typename, Stands L V w.disk typename (w.mirror.state typename)
    (w.mirror.pendingOf typename) ((Folded.ofDeltas types only taken).tables typename)
  values : ∀ typename oid row, (w.mirror.pendingOf typename).get? oid = some (some row) →
    ∀ name v, row.get? name = some v → V typename name v
  current : Recoverable L V types only taken w w.disk.manifest.current
  stable : Recoverable L V types only taken w w.disk.manifest.stable

/-- No manifest names a file, and neither does the mirror, so that writing it or
    losing it changes nothing that is ever read. -/
structure Free (w : MirrorWorld τ κ) (name : SegmentName) : Prop where
  memory : name.2 ∉ (w.mirror.state name.1).segments
  current : name.2 ∉ ((w.disk.manifest.current.getD {}).tables.getD name.1 {}).segments
  stable : name.2 ∉ ((w.disk.manifest.stable.getD {}).tables.getD name.1 {}).segments

/-- A mirror in the middle of a flush: the pending rows of some classes are still to
    be written, and some files are doomed. -/
structure Absorbing (L : Columnar τ κ) (V : String → ColumnValues) (types : Types)
    (only : Option (List String)) (taken : List Delta)
    (todo : List (String × Dict Nat (Option Row))) (doomed : List SegmentName) (whole : Bool)
    (w : MirrorWorld τ κ) : Prop where
  ok : MirrorOk L V types only taken w
  settled : w.disk.manifest.stable = w.disk.manifest.current
  whole : w.left.isNone = whole
  pending : ∀ e ∈ todo, w.mirror.pendingOf e.1 = e.2
  nodup : (todo.map Prod.fst).Nodup
  absorbed : ∀ typename, typename ∉ todo.map Prod.fst → Stands L V w.disk typename
    (w.mirror.state typename) Dict.empty ((Folded.ofDeltas types only taken).tables typename)
  doomed : ∀ name ∈ doomed, name.2 < (w.mirror.state name.1).nextSegment ∧
    name.2 ∉ (w.mirror.state name.1).segments

/-- A mirror after an operation, cut off or not. If the process went on to the end
    of it, the manifest is on disk. -/
structure Ended (L : Columnar τ κ) (V : String → ColumnValues) (types : Types)
    (only : Option (List String)) (taken : List Delta) (whole : Bool) (w : MirrorWorld τ κ) :
    Prop where
  ok : MirrorOk L V types only taken w
  settled : whole = true → w.disk.manifest.stable = w.disk.manifest.current
  whole : w.left.isNone = whole

section Files

variable {w : MirrorWorld τ κ} {disk disk' : MirrorDisk τ κ} {typename : String}
  {st : TableState τ} {parts : List (Dict Nat (Option Row))} {recent : Dict Nat (Option Row)}
  {tbl : Dict Nat Row} {taken : List Delta}

omit [DecidableEq τ] in
/-- A class keeps its rows as long as its files stay. -/
theorem ClassOk.onDisk (h : ClassOk L V disk typename st parts)
    (hdata : ∀ n ∈ st.segments, disk'.data (typename, n) = disk.data (typename, n))
    (hfolded : ∀ name ∈ disk.folded, name ∈ disk'.folded) :
    ClassOk L V disk' typename st parts := by
  refine { h with stored := ((List.forall₂_and_left _ _).mpr ⟨hdata, h.stored⟩).imp ?_ }
  rintro n rows ⟨hsame, t, ⟨f, hf, hcontent, hsynced⟩, hrows⟩
  exact ⟨t, ⟨f, by rw [hsame, hf], hcontent, hsynced.imp_right (hfolded _)⟩, hrows⟩

omit [DecidableEq τ] in
theorem Stands.onDisk (h : Stands L V disk typename st recent tbl)
    (hdata : ∀ n ∈ st.segments, disk'.data (typename, n) = disk.data (typename, n))
    (hfolded : ∀ name ∈ disk.folded, name ∈ disk'.folded) :
    Stands L V disk' typename st recent tbl := by
  rcases h with ⟨parts, hclass, hlive⟩
  exact ⟨parts, hclass.onDisk hdata hfolded, hlive⟩

omit [DecidableEq τ] in
/-- A class keeps its rows as its columns move. -/
theorem ClassOk.widen (h : ClassOk L V disk typename st parts) {columns : Dict String τ}
    (hmoved : Moved L (V typename) st.columns columns) :
    ClassOk L V disk typename { st with columns := columns } parts where
  stored := h.stored.imp fun _ _ ⟨t, hfiled, hrows⟩ => ⟨t, hfiled, hrows.widen hmoved.widens⟩
  reached := hmoved.reached
  below := h.below

omit [DecidableEq τ] in
theorem Recoverable.onDisk {slot : Option (MirrorManifest τ)} {left : Option Nat}
    (h : Recoverable L V types only taken w slot)
    (hdata : ∀ typename, ∀ n ∈ ((slot.getD {}).tables.getD typename {}).segments,
      disk.data (typename, n) = w.disk.data (typename, n))
    (hfolded : ∀ name ∈ w.disk.folded, name ∈ disk.folded) :
    Recoverable L V types only taken { w with disk := disk, left := left } slot := by
  rcases h.committed with ⟨kept, rest, htaken, hkept⟩
  refine { h with committed := ⟨kept, rest, htaken, { hkept with rows := fun typename => ?_ }⟩ }
  exact (hkept.rows typename).onDisk (hdata typename) hfolded

omit [DecidableEq τ] in
/-- Work on a free file changes nothing for the mirror. -/
theorem MirrorOk.onFree {left : Option Nat} {name : SegmentName}
    (h : MirrorOk L V types only taken w) (hfree : Free w name)
    (hdata : ∀ other, other ≠ name → disk.data other = w.disk.data other)
    (hfolded : ∀ other ∈ w.disk.folded, other ∈ disk.folded)
    (hmanifest : disk.manifest = w.disk.manifest) :
    MirrorOk L V types only taken { w with disk := disk, left := left } := by
  have hother : ∀ typename n, (n ∈ (w.mirror.state typename).segments ∨
      n ∈ ((w.disk.manifest.current.getD {}).tables.getD typename {}).segments ∨
      n ∈ ((w.disk.manifest.stable.getD {}).tables.getD typename {}).segments) →
      disk.data (typename, n) = w.disk.data (typename, n) := by
    intro typename n hn
    apply hdata
    rintro rfl
    rcases hn with hn | hn | hn
    · exact hfree.memory hn
    · exact hfree.current hn
    · exact hfree.stable hn
  refine { h with rows := fun typename => ?_, current := ?_, stable := ?_ }
  · exact (h.rows typename).onDisk (fun n hn => hother typename n (Or.inl hn)) hfolded
  · change Recoverable L V types only taken _ disk.manifest.current
    rw [hmanifest]
    exact h.current.onDisk (fun typename n hn => hother typename n (Or.inr (Or.inl hn))) hfolded
  · change Recoverable L V types only taken _ disk.manifest.stable
    rw [hmanifest]
    exact h.stable.onDisk (fun typename n hn => hother typename n (Or.inr (Or.inr hn))) hfolded

omit [DecidableEq τ] in
theorem Stands.below (h : Stands L V disk typename st recent tbl) :
    ∀ n ∈ st.segments, n < st.nextSegment := by
  rcases h with ⟨_, hclass, _⟩
  exact hclass.below

omit [DecidableEq τ] in
/-- The number a new file takes is free. -/
theorem MirrorOk.free_next (h : MirrorOk L V types only taken w) (typename : String) :
    Free w (typename, (w.mirror.state typename).nextSegment) := by
  have hnext : ∀ {slot}, Recoverable L V types only taken w slot →
      (w.mirror.state typename).nextSegment ∉
        ((slot.getD {}).tables.getD typename {}).segments := by
    intro slot hslot hmem
    rcases hslot.committed with ⟨kept, -, -, hkept⟩
    have hlt := (hkept.rows typename).below _ hmem
    have hle := hslot.below typename
    omega
  refine ⟨fun hmem => ?_, hnext h.current, hnext h.stable⟩
  have hlt := (h.rows typename).below _ hmem
  exact absurd hlt (Nat.lt_irrefl _)

omit [DecidableEq τ] in
theorem state_setState (m : Mirror τ) (typename other : String) (st : TableState τ) :
    (m.setState typename st).state other = if other = typename then st else m.state other := by
  unfold Mirror.setState Mirror.state Dict.getD
  dsimp only
  rw [Dict.get?_set]
  split
  · rfl
  · rfl

omit [DecidableEq τ] in
theorem state_setState_self (m : Mirror τ) (typename : String) (st : TableState τ) :
    (m.setState typename st).state typename = st := by
  rw [state_setState, if_pos rfl]

omit [DecidableEq τ] in
/-- New bookkeeping for a class, if it stands for the same rows. -/
theorem MirrorOk.setState (h : MirrorOk L V types only taken w)
    (hnext : (w.mirror.state typename).nextSegment ≤ st.nextSegment)
    (hrows : Stands L V w.disk typename st (w.mirror.pendingOf typename)
      ((Folded.ofDeltas types only taken).tables typename)) :
    MirrorOk L V types only taken { w with mirror := w.mirror.setState typename st } := by
  have hslot : ∀ {slot}, Recoverable L V types only taken w slot →
      Recoverable L V types only taken { w with mirror := w.mirror.setState typename st } slot := by
    intro slot hslot
    refine { hslot with below := fun other => ?_ }
    dsimp only
    rw [state_setState]
    split
    · next hother =>
        rw [hother]
        exact Nat.le_trans (hslot.below typename) hnext
    · exact hslot.below other
  refine { h with rows := fun other => ?_, current := hslot h.current, stable := hslot h.stable }
  change Stands L V w.disk other ((w.mirror.setState typename st).state other) _ _
  rw [state_setState]
  split
  · next hother =>
      rw [hother]
      exact hrows
  · exact h.rows other

end Files

section Programs

variable {w : MirrorWorld τ κ} {taken : List Delta} {doomed : List SegmentName} {whole : Bool}
  {todo : List (String × Dict Nat (Option Row))}

omit [DecidableEq τ] in
/-- A file step is taken, or the process ends in front of it. -/
theorem leads_fileStep {f : MirrorDisk τ κ → MirrorDisk τ κ} {I E : MirrorWorld τ κ → Prop}
    {Q : Unit → MirrorWorld τ κ → Prop}
    (hstep : ∀ w left, I w → left.isNone = w.left.isNone →
      Q () { w with disk := f w.disk, left := left })
    (hstop : ∀ w, I w → w.left.isNone = false → E w) : Leads I (fileStep f) Q E := by
  intro w hw
  unfold fileStep
  rw [bind_run_ok (get_run w)]
  cases hleft : w.left with
  | none => exact hstep w none hw (by rw [hleft])
  | some n =>
      cases n with
      | zero => exact hstop w hw (by rw [hleft]; rfl)
      | succ n => exact hstep w (some n) hw (by rw [hleft]; rfl)

omit [DecidableEq τ] in
/-- A flush may be cut off. -/
theorem Absorbing.ended (h : Absorbing L V types only taken todo doomed whole w) :
    Ended L V types only taken whole w := ⟨h.ok, fun _ => h.settled, h.whole⟩

omit [DecidableEq τ] in
/-- Work on a free file that is not doomed yet. -/
theorem Absorbing.onFree {disk : MirrorDisk τ κ} {left : Option Nat} {name : SegmentName}
    (h : Absorbing L V types only taken todo doomed whole w) (hfree : Free w name)
    (hleft : left.isNone = w.left.isNone)
    (hdata : ∀ other, other ≠ name → disk.data other = w.disk.data other)
    (hfolded : ∀ other ∈ w.disk.folded, other ∈ disk.folded)
    (hmanifest : disk.manifest = w.disk.manifest) :
    Absorbing L V types only taken todo doomed whole { w with disk := disk, left := left } := by
  refine { h with ok := h.ok.onFree hfree hdata hfolded hmanifest, settled := ?_, whole := ?_,
                  absorbed := fun typename hdone => ?_ }
  · change disk.manifest.stable = disk.manifest.current
    rw [hmanifest]
    exact h.settled
  · rw [← h.whole]
    exact hleft
  · refine (h.absorbed typename hdone).onDisk (fun n hn => hdata _ ?_) hfolded
    rintro rfl
    exact hfree.memory hn

omit [DecidableEq τ] in
/-- New bookkeeping for a class, in a flush. -/
theorem Absorbing.setState {doomed' : List SegmentName}
    {todo' : List (String × Dict Nat (Option Row))} {typename : String} {st : TableState τ}
    (h : Absorbing L V types only taken todo doomed whole w) (htodo : todo' <:+ todo)
    (hleft : ∀ other, other ≠ typename → other ∈ todo.map Prod.fst → other ∈ todo'.map Prod.fst)
    (hnext : (w.mirror.state typename).nextSegment ≤ st.nextSegment)
    (hrows : Stands L V w.disk typename st (w.mirror.pendingOf typename)
      ((Folded.ofDeltas types only taken).tables typename))
    (habsorbed : typename ∉ todo'.map Prod.fst → Stands L V w.disk typename st Dict.empty
      ((Folded.ofDeltas types only taken).tables typename))
    (hdoomed : ∀ name ∈ doomed', name.2 < ((w.mirror.setState typename st).state name.1).nextSegment ∧
      name.2 ∉ ((w.mirror.setState typename st).state name.1).segments) :
    Absorbing L V types only taken todo' doomed' whole
      { w with mirror := w.mirror.setState typename st } := by
  refine { h with ok := h.ok.setState hnext hrows
                  pending := fun e he => h.pending e (htodo.subset he)
                  nodup := h.nodup.sublist (htodo.sublist.map _)
                  absorbed := fun other hdone => ?_, doomed := hdoomed }
  change Stands L V w.disk other ((w.mirror.setState typename st).state other) _ _
  rw [state_setState]
  split
  · next hother =>
      rw [hother] at hdone ⊢
      exact habsorbed hdone
  · next hother => exact h.absorbed other fun hin => hdone (hleft other hother hin)

end Programs

section Segments

variable {disk disk' : MirrorDisk τ κ} {typename : String} {st : TableState τ}
  {parts : List (Dict Nat (Option Row))} {rows recent : Dict Nat (Option Row)}
  {tbl : Dict Nat Row} {tables : List (List (SegmentRow κ))}

theorem live_empty (parts : List (Dict Nat (Option Row))) (oid : Nat) :
    live (parts ++ [Dict.empty]) oid = live parts oid := by
  rw [live_snoc, Dict.get?_empty]

theorem mem_values {rows : Dict Nat (Option Row)} {oid : Nat} {row : Option Row}
    (h : rows.get? oid = some row) : row ∈ rows.values :=
  List.mem_map_of_mem (f := Prod.snd) ((Dict.get?_eq_some_iff _ _ _).mp h)

/-- A live row is in one of the parts. -/
theorem live_mem {oid : Nat} {row : Row} (h : live parts oid = some row) :
    ∃ rows ∈ parts, rows.get? oid = some (some row) := by
  unfold live at h
  induction parts with
  | nil => cases h
  | cons rows parts ih =>
      rw [newest] at h
      cases hnew : newest parts oid with
      | none =>
          rw [hnew, Option.none_or] at h
          exact ⟨rows, List.mem_cons_self, Option.join_eq_some_iff.mp h⟩
      | some found =>
          rw [hnew, Option.some_or] at h
          rcases ih (by rw [hnew]; exact h) with ⟨rows', hmem, hget⟩
          exact ⟨rows', List.mem_cons_of_mem rows hmem, hget⟩

omit [DecidableEq τ] in
/-- A class whose rows on top were written to a new file. -/
theorem Stands.push (h : Stands L V disk typename st rows tbl)
    (hfiled : Filed disk (typename, st.nextSegment) (L.pendingTable st.columns rows))
    (hfits : ∀ row, some row ∈ rows.values → RowFits L (V typename) st.columns row)
    (hrecent : recent = rows ∨ recent = Dict.empty) :
    Stands L V disk typename
      { st with segments := st.segments ++ [st.nextSegment], nextSegment := st.nextSegment + 1 }
      recent tbl := by
  rcases h with ⟨parts, hclass, hlive⟩
  refine ⟨parts ++ [rows], ⟨?_, hclass.reached, fun n hn => ?_⟩, fun oid => ?_⟩
  · refine List.rel_append hclass.stored (.cons ⟨_, hfiled, st.columns, rfl, ?_, .refl _⟩ .nil)
    exact fun oid row hrow => hfits row (mem_values hrow)
  · change n < st.nextSegment + 1
    rcases List.mem_append.mp hn with hn | hn
    · have hlt := hclass.below n hn
      omega
    · rw [List.mem_singleton.mp hn]
      omega
  · rcases hrecent with rfl | rfl
    · rw [live_again, hlive]
    · rw [live_empty, hlive]

/-- The files of a class can all be read. -/
theorem ClassOk.read (h : ClassOk L V disk typename st parts)
    (hreread : ∀ name, Rereads L (V typename name)) :
    st.segments.mapM (readFile L disk.data typename st.columns) =
      .ok (parts.map fun rows => (L.pendingTable st.columns rows).rows) := by
  have hstored := h.stored
  generalize hcolumns : st.columns = columns at hstored ⊢
  generalize st.segments = segments at hstored ⊢
  clear h hcolumns
  induction hstored with
  | nil => rfl
  | @cons n rows _ _ hone _ ih =>
      rcases hone with ⟨t, ⟨f, hf, hcontent, -⟩, hrows⟩
      have hread : readFile L disk.data typename columns n =
          .ok (L.pendingTable columns rows).rows := by
        unfold readFile
        rw [hf, Option.bind_some, hcontent]
        dsimp only
        rw [hrows.read hreread]
      rw [List.mapM_cons, hread, ih]
      rfl

/-- A class whose files were folded into a new one. -/
theorem Stands.fold (h : Stands L V disk typename st recent tbl)
    (hreread : ∀ name, Rereads L (V typename name))
    (hread : st.segments.mapM (readFile L disk.data typename st.columns) = .ok tables)
    (hfiled : Filed disk' (typename, st.nextSegment)
      ⟨st.columns, (foldLive tables).map fun r => (r.1, false, r.2)⟩) :
    Stands L V disk' typename
      { st with segments := [st.nextSegment], nextSegment := st.nextSegment + 1 } recent tbl := by
  rcases h with ⟨parts, hclass, hlive⟩
  rw [hclass.read hreread] at hread
  cases hread
  have htable : (⟨st.columns, (foldLive (parts.map fun rows =>
      (L.pendingTable st.columns rows).rows)).map fun r => (r.1, false, r.2)⟩ : SegmentTable τ κ) =
      L.pendingTable st.columns (compacted parts) := by
    rw [foldLive_cells]
    unfold Columnar.pendingTable compacted
    dsimp only
    rw [List.map_map, List.map_map]
    rfl
  rw [htable] at hfiled
  refine ⟨[compacted parts], ⟨?_, hclass.reached, fun n hn => ?_⟩, fun oid => ?_⟩
  · refine .cons ⟨_, hfiled, st.columns, rfl, fun oid row hrow => ?_, .refl _⟩ .nil
    -- The row comes from one of the segments, and its columns have moved since.
    have hfound : live parts oid = some row := by
      rw [← live_compacted]
      unfold live
      rw [newest, newest, Option.none_or, hrow]
      rfl
    rcases live_mem hfound with ⟨rows, hrows, hget⟩
    rcases List.mem_iff_get.mp hrows with ⟨i, rfl⟩
    have hlt : i.1 < st.segments.length := by
      rw [hclass.stored.length_eq]
      exact i.2
    rcases hclass.stored.get hlt i.2 with ⟨t, -, tags, -, hfits, hwiden⟩
    exact (hfits oid row hget).widen hwiden
  · change n < st.nextSegment + 1
    rw [List.mem_singleton.mp hn]
    omega
  · rw [← hlive]
    exact live_replace (live_compacted parts) recent oid

end Segments

end DataCrystal
