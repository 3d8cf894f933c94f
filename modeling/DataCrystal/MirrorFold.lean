import DataCrystal.Lib.Pairings
import DataCrystal.MirrorRows

/-!
# Folding the Segments of a Mirror

What the cells of a table are, without any assumption on the columnar layer. A cell that
was written under one tag and is stored again under a later one may be another than the cell
of the value under the later tag, so it matters under which tags it has been. `Traced` is a
row with its history: the columns it was written under, and those of every fold that has
stored it again since. `Columnar.traced` are its cells, made anew from the values along that
history. With a layer that loses nothing they are the cells of the values under the last
columns.

A segment holds rows with a history. Reading it under later columns adds these to the history
of every row, and so does folding, which goes by keys and tombstones and does not look at
cells.

## Main definitions

* `Traced`: A row with the columns it has been under.
* `Columnar.traced`: The cells it has by now.
* `Traced.Sound`: Its columns have moved from one to the next, and cover it.
* `SegmentHolds`: A segment holds some rows.

## Theorems

* `Traced.Sound.cells`: What the cells are if nothing is lost.
* `traced_fold_self`: A fold under the columns of the cells leaves them.
* `SegmentHolds.read`: Reading a segment under later columns.
* `foldLive_eq`: Folding what was read.
-/

namespace DataCrystal

variable {τ κ : Type} [DecidableEq τ] {L : Columnar τ κ} {V : ColumnValues}

/-- A row, with the columns it was written under and those of every fold since then, the last
    one first. -/
structure Traced (τ : Type) where
  row : Row
  first : Dict String τ
  folds : List (Dict String τ) := []

namespace Traced

omit [DecidableEq τ] in
/-- The columns its cells have been stored under last. -/
def tags (x : Traced τ) : Dict String τ := x.folds.headD x.first

omit [DecidableEq τ] in
/-- The row behind a fold under some columns. -/
def fold (columns : Dict String τ) (x : Traced τ) : Traced τ :=
  { x with folds := columns :: x.folds }

omit [DecidableEq τ] in
@[simp]
theorem row_fold (columns : Dict String τ) (x : Traced τ) : (x.fold columns).row = x.row := rfl

omit [DecidableEq τ] in
@[simp]
theorem tags_fold (columns : Dict String τ) (x : Traced τ) : (x.fold columns).tags = columns := rfl

end Traced

namespace Columnar

variable (L : Columnar τ κ)

/-- The cells of a row that was written under some columns and read again under others. -/
def tracedCells (row : Row) (first : Dict String τ) : List (Dict String τ) → List (String × κ)
  | [] => L.cells first (some row)
  | columns :: folds => (sortedColumns columns).map fun c =>
      (c.1, L.rereadCell (folds.headD first) (tracedCells row first folds) c)

/-- The cells of a row with its history. -/
def traced (x : Traced τ) : List (String × κ) := L.tracedCells x.row x.first x.folds

end Columnar

theorem traced_fold (columns : Dict String τ) (x : Traced τ) : L.traced (x.fold columns) =
    (sortedColumns columns).map fun c => (c.1, L.rereadCell x.tags (L.traced x) c) := rfl

section Cells

/-- A cell for every column. -/
def CellNames (columns : Dict String τ) (cells : List (String × κ)) : Prop :=
  cells.map Prod.fst = (sortedColumns columns).map Prod.fst

omit [DecidableEq τ] in
theorem cellNames_map (columns : Dict String τ) (f : String × τ → κ) :
    CellNames columns ((sortedColumns columns).map fun c => (c.1, f c)) := by
  unfold CellNames
  rw [List.map_map]
  rfl

theorem traced_names (x : Traced τ) : CellNames x.tags (L.traced x) := by
  cases x with
  | mk row first folds =>
      cases folds with
      | nil => exact cellNames_map first _
      | cons columns folds => exact cellNames_map columns _

omit [DecidableEq τ] in
/-- Cells that are there for every column are what is found under its name. -/
theorem CellNames.eq_lookup {columns : Dict String τ} {cells : List (String × κ)}
    (h : CellNames columns cells) (k : κ) :
    cells = (sortedColumns columns).map fun c => (c.1, (cells.lookup c.1).getD k) := by
  have hnodup : ((sortedColumns columns).map Prod.fst).Nodup :=
    ((List.perm_insertionSort _ columns.entries).map Prod.fst).nodup_iff.mpr columns.nodup
  have hmap : ((sortedColumns columns).map fun c => (c.1, (cells.lookup c.1).getD k)) =
      ((sortedColumns columns).map Prod.fst).map fun name => (name, (cells.lookup name).getD k) := by
    rw [List.map_map]
    rfl
  rw [hmap]
  unfold CellNames at h
  rw [← h] at hnodup ⊢
  clear hmap h
  induction cells with
  | nil => rfl
  | cons c cells ih =>
      rw [List.map_cons, List.nodup_cons] at hnodup
      rw [List.map_cons, List.map_cons, List.lookup_cons_self, Option.getD_some]
      congr 1
      conv_lhs => rw [ih hnodup.2]
      refine List.map_congr_left fun name hname => ?_
      have hne : (name == c.1) = false := by
        rw [beq_eq_false_iff_ne]
        rintro rfl
        exact hnodup.1 hname
      rw [List.lookup_cons, hne]

/-- Cells that are there for every column are read as they are. -/
theorem rereadCells_self {columns : Dict String τ} {cells : List (String × κ)}
    (h : CellNames columns cells) :
    ((sortedColumns columns).map fun c => (c.1, L.rereadCell columns cells c)) = cells := by
  conv_rhs => rw [h.eq_lookup L.nullCell]
  refine List.map_congr_left fun c hc => ?_
  unfold Columnar.rereadCell
  rw [mem_sortedColumns.mp hc]
  dsimp only
  rw [if_pos rfl]

/-- A fold under the columns the cells have already leaves them. -/
theorem traced_fold_self {columns : Dict String τ} {x : Traced τ} (h : x.tags = columns) :
    L.traced (x.fold columns) = L.traced x := by
  rw [← h, traced_fold, rereadCells_self (traced_names x)]

end Cells

section Sound

/-- The columns of a history have moved from one to the next. -/
def FoldsWiden (L : Columnar τ κ) (V : ColumnValues) (first : Dict String τ) :
    List (Dict String τ) → Prop
  | [] => True
  | columns :: folds => ColumnsWiden L V (folds.headD first) columns ∧ FoldsWiden L V first folds

/-- The row fits the columns it was written under, and these have moved to some columns, from
    one fold to the next. -/
structure Traced.Sound (L : Columnar τ κ) (V : ColumnValues) (columns : Dict String τ)
    (x : Traced τ) : Prop where
  fits : RowFits L V x.first x.row
  moved : FoldsWiden L V x.first x.folds
  widens : ColumnsWiden L V x.tags columns

omit [DecidableEq τ] in
theorem Traced.Sound.widen {a b : Dict String τ} {x : Traced τ} (h : x.Sound L V a)
    (hab : ColumnsWiden L V a b) : x.Sound L V b := { h with widens := h.widens.trans hab }

omit [DecidableEq τ] in
theorem Traced.Sound.fold {columns : Dict String τ} {x : Traced τ} (h : x.Sound L V columns) :
    (x.fold columns).Sound L V columns :=
  ⟨h.fits, ⟨h.widens, h.moved⟩, ColumnsWiden.refl columns⟩

/-- Along a history the row fits the columns, and has the cells it would have if it were
    written under them. The induction is on the folds, the last one first. -/
theorem tracedCells_eq (hreread : ∀ name, Rereads L (V name)) {row : Row} {first : Dict String τ}
    (hfits : RowFits L V first row) {folds : List (Dict String τ)} (h : FoldsWiden L V first folds) :
    RowFits L V (folds.headD first) row ∧
      L.tracedCells row first folds = L.cells (folds.headD first) (some row) := by
  induction folds with
  | nil => exact ⟨hfits, rfl⟩
  | cons columns folds ih =>
      rcases ih h.2 with ⟨hbefore, hcells⟩
      refine ⟨hbefore.widen h.1, ?_⟩
      rw [Columnar.tracedCells, hcells]
      exact rereadCells_eq hreread (fun r hr => Option.some_inj.mp hr ▸ hbefore) h.1

/-- With a layer that loses nothing the cells of a row under the present columns are those of
    its values. -/
theorem Traced.Sound.cells (hreread : ∀ name, Rereads L (V name)) {columns : Dict String τ}
    {x : Traced τ} (h : x.Sound L V columns) :
    L.traced (x.fold columns) = L.cells columns (some x.row) :=
  have hfolds : FoldsWiden L V x.first (columns :: x.folds) := ⟨h.widens, h.moved⟩
  (tracedCells_eq hreread h.fits hfolds).2

end Sound

section Rows

/-- A row of a segment for an entry: a row with the cells of its history, or a tombstone. -/
structure RowOf (L : Columnar τ κ) (columns : Dict String τ) (r : SegmentRow κ)
    (e : Nat × Option (Traced τ)) : Prop where
  oid : r.1 = e.1
  deleted : r.2.1 = e.2.isNone
  tags : ∀ x, e.2 = some x → x.tags = columns
  cells : ∀ x, e.2 = some x → r.2.2 = L.traced x

/-- A segment holds some rows. -/
def SegmentHolds (L : Columnar τ κ) (t : SegmentTable τ κ) (rows : Dict Nat (Option (Traced τ))) :
    Prop := List.Forall₂ (RowOf L t.tags) t.rows rows.entries

/-- Rows as they are written for the first time. -/
def freshTraced (columns : Dict String τ) (rows : Dict Nat (Option Row)) : Dict Nat (Option (Traced τ)) :=
  rows.mapVal fun _ row => row.map fun row => ⟨row, columns, []⟩

/-- Rows behind a fold. -/
def refold (columns : Dict String τ) (rows : Dict Nat (Option (Traced τ))) :
    Dict Nat (Option (Traced τ)) :=
  rows.mapVal fun _ x => x.map (Traced.fold columns)

/-- The segment that is written of some rows holds them. -/
theorem pendingTable_holds (columns : Dict String τ) (rows : Dict Nat (Option Row)) :
    SegmentHolds L (L.pendingTable columns rows) (freshTraced columns rows) := by
  change List.Forall₂ _ (rows.entries.map _) (rows.entries.map _)
  rw [List.forall₂_map_left_iff, List.forall₂_map_right_iff, List.forall₂_same]
  rintro ⟨oid, row⟩ -
  refine ⟨rfl, ?_, ?_, ?_⟩
  · cases row <;> rfl
  · intro x hx
    rcases Option.map_eq_some_iff.mp hx with ⟨r, -, rfl⟩
    rfl
  · intro x hx
    rcases Option.map_eq_some_iff.mp hx with ⟨r, hr, rfl⟩
    dsimp only at hr
    rw [hr]
    rfl

/-- What is read of a segment under some columns. -/
theorem SegmentHolds.read {t : SegmentTable τ κ} {rows : Dict Nat (Option (Traced τ))}
    (h : SegmentHolds L t rows) (columns : Dict String τ) :
    List.Forall₂ (RowOf L columns) (L.readSegment columns t) (refold columns rows).entries := by
  change List.Forall₂ _ (t.rows.map _) (rows.entries.map _)
  rw [List.forall₂_map_left_iff, List.forall₂_map_right_iff]
  refine List.Forall₂.imp ?_ h
  rintro r ⟨oid, x⟩ hre
  refine ⟨hre.oid, ?_, ?_, ?_⟩
  · rw [hre.deleted]
    cases x <;> rfl
  · intro y hy
    rcases Option.map_eq_some_iff.mp hy with ⟨x', -, rfl⟩
    rfl
  · intro y hy
    rcases Option.map_eq_some_iff.mp hy with ⟨x', hx', rfl⟩
    rw [traced_fold, hre.tags x' hx', hre.cells x' hx']

/-- Rows and tombstones are told apart alike. -/
theorem live_cells {columns : Dict String τ} {rows : List (SegmentRow κ)}
    {entries : List (Nat × Option (Traced τ))} (h : List.Forall₂ (RowOf L columns) rows entries) :
    ((rows.filter fun r => !r.2.1).map fun r => (r.1, r.2.2)) =
      (liveRows entries).map fun e => (e.1, L.traced e.2) := by
  induction h with
  | nil => rfl
  | @cons r e rows entries hone _ ih =>
      unfold liveRows at ih ⊢
      have hdeleted := hone.deleted
      cases hx : e.2 with
      | none =>
          rw [hx] at hdeleted
          rw [List.filter_cons_of_neg (by rw [hdeleted]; exact Bool.false_ne_true),
            List.filterMap_cons_none (by rw [hx]; rfl)]
          exact ih
      | some x =>
          rw [hx] at hdeleted
          rw [List.filter_cons_of_pos (by rw [hdeleted]; rfl), List.map_cons,
            List.filterMap_cons_some (by rw [hx]; rfl), List.map_cons, ih, hone.oid,
            hone.cells x hx]

/-- Folding what was read of some segments gives the cells of the newest live rows. -/
theorem foldLive_eq {columns : Dict String τ} {parts : List (List (SegmentRow κ))}
    {entries : List (Dict Nat (Option (Traced τ)))}
    (h : List.Forall₂ (fun rows d => List.Forall₂ (RowOf L columns) rows d.entries) parts entries) :
    foldLive parts = (sortByKey (liveRows (foldNewest Prod.fst (entries.map Dict.entries)))).map
      fun e => (e.1, L.traced e.2) := by
  have hfold := @foldNewest_rel _ _ (RowOf L columns) Prod.fst Prod.fst (fun _ _ hre => hre.oid) _ _
    (List.forall₂_map_right_iff.mpr h)
  unfold foldLive
  rw [live_cells hfold, ← sortByKey_map]

/-- The segment that a compaction writes. -/
def foldedTable (columns : Dict String τ) (parts : List (List (SegmentRow κ))) :
    SegmentTable τ κ := ⟨columns, (foldLive parts).map fun r => (r.1, false, r.2)⟩

/-- It holds the newest live rows. -/
theorem foldedTable_holds {columns : Dict String τ} {parts : List (List (SegmentRow κ))}
    {entries : List (Dict Nat (Option (Traced τ)))}
    (h : List.Forall₂ (fun rows d => List.Forall₂ (RowOf L columns) rows d.entries) parts entries) :
    SegmentHolds L (foldedTable columns parts) (compacted entries) := by
  have htags : ∀ e ∈ sortByKey (liveRows (foldNewest Prod.fst (entries.map Dict.entries))),
      e.2.tags = columns := by
    rintro ⟨oid, x⟩ he
    have hmem := mem_liveRows.mp ((List.mem_insertionSort _).mp he)
    have hfold := @foldNewest_rel _ _ (RowOf L columns) Prod.fst Prod.fst (fun _ _ hre => hre.oid) _
      _ (List.forall₂_map_right_iff.mpr h)
    exact forall₂_left hfold.flip (fun e r hre => RowOf.tags hre) (oid, some x) hmem x rfl
  change List.Forall₂ _ ((foldLive parts).map _) ((sortByKey _).map _)
  rw [foldLive_eq h, List.map_map, List.forall₂_map_left_iff, List.forall₂_map_right_iff,
    List.forall₂_same]
  intro e he
  refine ⟨rfl, rfl, ?_, ?_⟩
  · intro x hx
    rw [← Option.some_inj.mp hx]
    exact htags e he
  · intro x hx
    rw [← Option.some_inj.mp hx]
    rfl

end Rows

end DataCrystal
