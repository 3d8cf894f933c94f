import DataCrystal.Mirror

/-!
# Rows in Columns

A segment is written under the tags its columns had then, and read under the
tags they have now. What is read is what would be written now, provided that a
value stored under a tag can be stored again under every later tag of its
column. `Rereads` is that proviso, column by column. It is a property of the
values and of the columnar layer, and fails where a tag keeps less than the
value: a boolean stored as an integer is an integer from then on.

`Widens` is how the tag of a column moves, one value at a time. It only grows,
so a column covers every value it was ever widened by.

## Main definitions

* `Widens`, `Covers`: How a tag moves, and what it covers.
* `Rereads`: Stored values can be stored again.
* `SegmentOk`: A segment file holds some rows.

## Theorems

* `rereadCells_eq`, `SegmentOk.read`: A row and a segment are read as they would be written.
* `widenRows_leads`: The columns after they were widened by some rows.
* `foldLive_cells`: Folding segments is folding their rows.
-/

namespace DataCrystal

variable {τ κ : Type} [DecidableEq τ] {L : Columnar τ κ}

/-- How the tag of a column moves by values with `P`. -/
inductive Widens (L : Columnar τ κ) (P : Val Token → Prop) : τ → τ → Prop
  | refl (t : τ) : Widens L P t t
  | step {s t : τ} {v : Val Token} (h : Widens L P s t) (hv : P v) :
      Widens L P s (L.unify t (L.tagOf v))

omit [DecidableEq τ] in
theorem Widens.trans {P : Val Token → Prop} {s t u : τ} (h : Widens L P s t)
    (h' : Widens L P t u) : Widens L P s u := by
  induction h' with
  | refl => exact h
  | step _ hv ih => exact ih.step hv

/-- The tag of a column that was widened by a value. -/
def Covers (L : Columnar τ κ) (P : Val Token → Prop) (t : τ) (v : Val Token) : Prop :=
  P v ∧ ∃ s, Widens L P L.null s ∧ Widens L P (L.unify s (L.tagOf v)) t

omit [DecidableEq τ] in
theorem Covers.widens {P : Val Token → Prop} {t t' : τ} {v : Val Token} (h : Covers L P t v)
    (hw : Widens L P t t') : Covers L P t' v := by
  rcases h with ⟨hv, s, hs, ht⟩
  exact ⟨hv, s, hs, ht.trans hw⟩

/-- A value of a column that was stored under one of its tags is stored again
    under a later one as if it were new. -/
def Rereads (L : Columnar τ κ) (P : Val Token → Prop) : Prop :=
  ∀ v old new, Covers L P old v → Widens L P old new → old ≠ new →
    L.storable new (L.semantic old (L.storable old v)) = L.storable new v

/-- The columns that may be mirrored of one class: by field, its values. -/
abbrev ColumnValues := String → Val Token → Prop

variable {V : ColumnValues}

/-- Every field of a row has a column that covers its value. -/
def RowFits (L : Columnar τ κ) (V : ColumnValues) (columns : Dict String τ) (row : Row) : Prop :=
  ∀ name v, row.get? name = some v → ∃ tag, columns.get? name = some tag ∧ Covers L (V name) tag v

/-- The columns have moved. -/
def ColumnsWiden (L : Columnar τ κ) (V : ColumnValues) (old new : Dict String τ) : Prop :=
  ∀ name tag, old.get? name = some tag → ∃ tag', new.get? name = some tag' ∧
    Widens L (V name) tag tag'

/-- The columns come from values. -/
def Reached (L : Columnar τ κ) (V : ColumnValues) (columns : Dict String τ) : Prop :=
  ∀ name tag, columns.get? name = some tag → Widens L (V name) L.null tag

/-- A segment file holds some rows, written under tags its class had once. The
    columns have widened since, and every cell was covered by its tag. -/
def SegmentOk (L : Columnar τ κ) (V : ColumnValues) (columns : Dict String τ)
    (t : SegmentTable τ κ) (rows : Dict Nat (Option Row)) : Prop :=
  ∃ tags, t = L.pendingTable tags rows ∧
    (∀ oid row, rows.get? oid = some (some row) → RowFits L V tags row) ∧
    ColumnsWiden L V tags columns

omit [DecidableEq τ] in
theorem ColumnsWiden.refl (columns : Dict String τ) : ColumnsWiden L V columns columns :=
  fun _ tag h => ⟨tag, h, .refl tag⟩

omit [DecidableEq τ] in
theorem ColumnsWiden.trans {a b c : Dict String τ} (h : ColumnsWiden L V a b)
    (h' : ColumnsWiden L V b c) : ColumnsWiden L V a c := by
  intro name tag htag
  rcases h name tag htag with ⟨tag', htag', hw⟩
  rcases h' name tag' htag' with ⟨tag'', htag'', hw'⟩
  exact ⟨tag'', htag'', hw.trans hw'⟩

omit [DecidableEq τ] in
theorem RowFits.widen {a b : Dict String τ} {row : Row} (h : RowFits L V a row)
    (hab : ColumnsWiden L V a b) : RowFits L V b row := by
  intro name v hv
  rcases h name v hv with ⟨tag, htag, hcovers⟩
  rcases hab name tag htag with ⟨tag', htag', hw⟩
  exact ⟨tag', htag', hcovers.widens hw⟩

omit [DecidableEq τ] in
theorem SegmentOk.widen {a b : Dict String τ} {t : SegmentTable τ κ}
    {rows : Dict Nat (Option Row)} (h : SegmentOk L V a t rows) (hab : ColumnsWiden L V a b) :
    SegmentOk L V b t rows := by
  rcases h with ⟨tags, ht, hfits, hwiden⟩
  exact ⟨tags, ht, hfits, hwiden.trans hab⟩

omit [DecidableEq τ] in
theorem mem_sortedColumns {columns : Dict String τ} {c : String × τ} :
    c ∈ sortedColumns columns ↔ columns.get? c.1 = some c.2 := by
  unfold sortedColumns
  rw [List.mem_insertionSort, Dict.get?_eq_some_iff]

/-- The value of a row in a column. -/
def valueIn (row : Option Row) (name : String) : Val Token :=
  (row.bind fun r => r.get? name).getD .none

omit [DecidableEq τ] in
/-- The cell of a written column. -/
theorem lookup_cells {tags : Dict String τ} (row : Option Row) {name : String} {tag : τ}
    (h : tags.get? name = some tag) :
    (L.cells tags row).lookup name = some (L.storable tag (valueIn row name)) := by
  have hnodup : ((sortedColumns tags).map Prod.fst).Nodup :=
    ((List.perm_insertionSort _ tags.entries).map Prod.fst).nodup_iff.mpr tags.nodup
  have hmem : (name, tag) ∈ sortedColumns tags := mem_sortedColumns.mpr h
  unfold Columnar.cells
  generalize sortedColumns tags = columns at hnodup hmem
  induction columns with
  | nil => exact absurd hmem List.not_mem_nil
  | cons c columns ih =>
      rw [List.map_cons, List.nodup_cons] at hnodup
      rw [List.map_cons, List.lookup_cons]
      by_cases hc : name = c.1
      · -- The names are distinct, so this is the column.
        rcases List.mem_cons.mp hmem with heq | hlater
        · rw [← heq]
          simp only [beq_self_eq_true]
          rfl
        · exact absurd (hc ▸ List.mem_map_of_mem hlater) hnodup.1
      · have hbeq : (name == c.1) = false := by simpa using hc
        rw [hbeq]
        rcases List.mem_cons.mp hmem with heq | hlater
        · exact absurd (congrArg Prod.fst heq) hc
        · exact ih hnodup.2 hlater

/-- Cells that were written under some columns are read under later ones as they would be
    written now. -/
theorem rereadCells_eq (hreread : ∀ name, Rereads L (V name)) {tags columns : Dict String τ}
    {row : Option Row} (hfits : ∀ r, row = some r → RowFits L V tags r)
    (hwiden : ColumnsWiden L V tags columns) :
    ((sortedColumns columns).map fun c => (c.1, L.rereadCell tags (L.cells tags row) c)) =
      L.cells columns row := by
  conv_rhs => unfold Columnar.cells
  refine List.map_congr_left fun c hc => ?_
  have hcolumn := mem_sortedColumns.mp hc
  congr 1
  change L.rereadCell tags (L.cells tags row) c = L.storable c.2 (valueIn row c.1)
  -- A field of the row has a column already; a field it lacks has no value.
  have hvalue : valueIn row c.1 = .none ∨ ∃ r v, row = some r ∧ r.get? c.1 = some v ∧
      valueIn row c.1 = v := by
    unfold valueIn
    cases hrow : row with
    | none => exact Or.inl rfl
    | some r =>
        cases hv : r.get? c.1 with
        | none => exact Or.inl (by rw [Option.bind_some, hv]; rfl)
        | some v => exact Or.inr ⟨r, v, rfl, hv, by rw [Option.bind_some, hv]; rfl⟩
  unfold Columnar.rereadCell
  cases htag : tags.get? c.1 with
  | none =>
      rcases hvalue with hnone | ⟨r, v, hrow, hv, -⟩
      · rw [hnone, L.storable_none]
      · rcases hfits r hrow c.1 v hv with ⟨tag, hold, -⟩
        rw [htag] at hold
        cases hold
  | some old =>
      rw [lookup_cells row htag, Option.getD_some]
      dsimp only
      by_cases hsame : old = c.2
      · rw [if_pos hsame, hsame]
      · rw [if_neg hsame]
        rcases hvalue with hnone | ⟨r, v, hrow, hv, hvalue⟩
        · rw [hnone, L.storable_none old, L.semantic_null]
        · rcases hfits r hrow c.1 v hv with ⟨tag, hold, hcovers⟩
          rw [htag] at hold
          cases hold
          rcases hwiden c.1 old htag with ⟨tag', hnew, hmoved⟩
          rw [hcolumn] at hnew
          cases hnew
          rw [hvalue]
          exact hreread c.1 v old c.2 hcovers hmoved hsame

/-- A segment is read under the present columns as it would be written now. -/
theorem SegmentOk.read {columns : Dict String τ} {t : SegmentTable τ κ}
    {rows : Dict Nat (Option Row)} (h : SegmentOk L V columns t rows)
    (hreread : ∀ name, Rereads L (V name)) :
    L.readSegment columns t = (L.pendingTable columns rows).rows := by
  rcases h with ⟨tags, rfl, hfits, hwiden⟩
  unfold Columnar.readSegment Columnar.pendingTable
  dsimp only
  rw [List.map_map]
  refine List.map_congr_left fun e he => ?_
  have hget : rows.get? e.1 = some e.2 := (Dict.get?_eq_some_iff _ _ _).mpr he
  dsimp only [Function.comp]
  rw [rereadCells_eq hreread (fun r hr => hfits e.1 r (hr ▸ hget)) hwiden]

section Widening

/-- Columns that have moved from some columns, and come from values. They only widen
    on the way, so a cell that was written under the old ones can still be read. -/
structure Moved (L : Columnar τ κ) (V : ColumnValues) (old new : Dict String τ) : Prop where
  widens : ColumnsWiden L V old new
  reached : Reached L V new

omit [DecidableEq τ] in
theorem Moved.trans {a b c : Dict String τ} (h : Moved L V a b) (h' : Moved L V b c) :
    Moved L V a c := ⟨h.widens.trans h'.widens, h'.reached⟩

omit [DecidableEq τ] in
/-- One value widens its column, and is covered by it. -/
theorem widenField_leads (columns : Dict String τ) (e : String × Val Token) (hv : V e.1 e.2) :
    Leads (fun cs => Moved L V columns cs) (L.widenField e)
      (fun _ cs => Moved L V columns cs ∧
        ∃ tag, cs.get? e.1 = some tag ∧ Covers L (V e.1) tag e.2)
      (fun cs => Moved L V columns cs) := by
  unfold Columnar.widenField
  refine leads_bind (Q := fun _ cs => Moved L V columns cs) ?_ fun _ => ?_
  · unfold raiseIf
    split
    · exact leads_throw fun _ h => h
    · exact leads_pure fun _ h => h
  · refine leads_modify fun cs h => ?_
    have hold : Widens L (V e.1) L.null (cs.getD e.1 L.null) := by
      unfold Dict.getD
      cases hget : cs.get? e.1 with
      | none => exact .refl _
      | some tag => exact h.reached e.1 tag hget
    have hself := Dict.get?_set_self cs e.1 (L.unify (cs.getD e.1 L.null) (L.tagOf e.2))
    refine ⟨⟨h.widens.trans fun name tag htag => ?_, fun name tag htag => ?_⟩, _, hself, hv, _,
      hold, .refl _⟩
    · by_cases hname : name = e.1
      · rw [hname] at htag ⊢
        have hgetD : cs.getD e.1 L.null = tag := by rw [Dict.getD, htag]; rfl
        exact ⟨_, hself, by rw [hgetD]; exact (Widens.refl tag).step hv⟩
      · exact ⟨tag, by rw [Dict.get?_set_ne _ _ hname, htag], .refl tag⟩
    · by_cases hname : name = e.1
      · rw [hname] at htag ⊢
        rw [hself] at htag
        cases htag
        exact hold.step hv
      · rw [Dict.get?_set_ne _ _ hname] at htag
        exact h.reached name tag htag

omit [DecidableEq τ] in
/-- The fields of a row widen their columns. -/
theorem widenFields_leads (columns : Dict String τ) (fields : List (String × Val Token)) :
    (∀ e ∈ fields, V e.1 e.2) → Leads (fun cs => Moved L V columns cs)
      (fields.forM L.widenField)
      (fun _ cs => Moved L V columns cs ∧
        ∀ e ∈ fields, ∃ tag, cs.get? e.1 = some tag ∧ Covers L (V e.1) tag e.2)
      (fun cs => Moved L V columns cs) := by
  induction fields generalizing columns with
  | nil => exact fun _ => leads_pure fun _ h => ⟨h, fun e he => absurd he List.not_mem_nil⟩
  | cons e fields ih =>
      intro hv s hs
      -- The field of the head, and then the columns it has left.
      have hone := widenField_leads (L := L) columns e (hv e List.mem_cons_self) s hs
      rw [forM_cons_run, bind_run]
      cases hrun : L.widenField e s with
      | error err t =>
          rw [hrun] at hone
          exact hone
      | ok u t =>
          rw [hrun] at hone
          rcases hone with ⟨hmoved, tag, htag, hcovers⟩
          have hrest := ih t (fun e' he' => hv e' (List.mem_cons_of_mem e he')) t
            ⟨ColumnsWiden.refl t, hmoved.reached⟩
          dsimp only
          cases hlast : fields.forM L.widenField t with
          | error err t' =>
              rw [hlast] at hrest
              exact hmoved.trans hrest
          | ok u' t' =>
              rw [hlast] at hrest
              refine ⟨hmoved.trans hrest.1, fun e' he' => ?_⟩
              rcases List.mem_cons.mp he' with rfl | he'
              · -- The later fields only widen the column further.
                rcases hrest.1.widens e'.1 tag htag with ⟨tag', htag', hw⟩
                exact ⟨tag', htag', hcovers.widens hw⟩
              · exact hrest.2 e' he'

omit [DecidableEq τ] in
/-- A row widens the columns of its fields. -/
theorem widenRow_leads (columns : Dict String τ) (row : Option Row)
    (hv : ∀ r, row = some r → ∀ name v, r.get? name = some v → V name v) :
    Leads (fun cs => Moved L V columns cs) (L.widenRow row)
      (fun _ cs => Moved L V columns cs ∧ ∀ r, row = some r → RowFits L V cs r)
      (fun cs => Moved L V columns cs) := by
  cases row with
  | none => exact leads_pure fun _ h => ⟨h, fun r hr => nomatch hr⟩
  | some r =>
      have hvalues : ∀ e ∈ r.entries, V e.1 e.2 := fun e he =>
        hv r rfl e.1 e.2 ((Dict.get?_eq_some_iff _ _ _).mpr he)
      refine leads_mono (widenFields_leads columns r.entries hvalues) (fun _ h => h) ?_
      rintro _ cs ⟨hmoved, hcovered⟩
      refine ⟨hmoved, fun r' hr' => ?_⟩
      cases hr'
      intro name v hget
      exact hcovered (name, v) ((Dict.get?_eq_some_iff _ _ _).mp hget)

omit [DecidableEq τ] in
/-- The columns after they were widened by some rows cover them. -/
theorem widenRows_leads (columns : Dict String τ) (rows : List (Option Row)) :
    (∀ row, some row ∈ rows → ∀ name v, row.get? name = some v → V name v) →
    Leads (fun cs => Moved L V columns cs) (L.widenRows rows)
      (fun _ cs => Moved L V columns cs ∧ ∀ row, some row ∈ rows → RowFits L V cs row)
      (fun cs => Moved L V columns cs) := by
  unfold Columnar.widenRows
  induction rows generalizing columns with
  | nil => exact fun _ => leads_pure fun _ h => ⟨h, fun row hrow => absurd hrow List.not_mem_nil⟩
  | cons row rows ih =>
      intro hv s hs
      have hone := widenRow_leads (L := L) columns row
        (fun r hr => hv r (hr ▸ List.mem_cons_self)) s hs
      rw [forM_cons_run, bind_run]
      cases hfirst : L.widenRow row s with
      | error err t =>
          rw [hfirst] at hone
          exact hone
      | ok u t =>
          rw [hfirst] at hone
          have hrest := ih t (fun r hr => hv r (List.mem_cons_of_mem row hr)) t
            ⟨ColumnsWiden.refl t, hone.1.reached⟩
          dsimp only
          cases hlast : rows.forM L.widenRow t with
          | error err t' =>
              rw [hlast] at hrest
              exact hone.1.trans hrest
          | ok u' t' =>
              rw [hlast] at hrest
              refine ⟨hone.1.trans hrest.1, fun r hr => ?_⟩
              rcases List.mem_cons.mp hr with heq | hr
              · exact (hone.2 r heq.symm).widen hrest.1.widens
              · exact hrest.2 r hr

end Widening

omit [DecidableEq τ] in
/-- Folding segments is folding their rows. -/
theorem foldLive_cells (columns : Dict String τ) (parts : List (Dict Nat (Option Row))) :
    foldLive (parts.map fun rows => (L.pendingTable columns rows).rows) =
      (sortByKey (liveRows (foldNewest Prod.fst (parts.map Dict.entries)))).map
        fun e => (e.1, L.cells columns (some e.2)) := by
  have hparts : (parts.map fun rows => (L.pendingTable columns rows).rows) =
      (parts.map Dict.entries).map
        (List.map fun e : Nat × Option Row => (e.1, e.2.isNone, L.cells columns e.2)) := by
    rw [List.map_map]
    rfl
  -- By induction on the rows: a tombstone has no cells.
  have hlive : ∀ rows : List (Nat × Option Row),
      (((rows.map fun e => (e.1, e.2.isNone, L.cells columns e.2)).filter fun r => !r.2.1).map
        fun r => (r.1, r.2.2)) = (liveRows rows).map fun e => (e.1, L.cells columns (some e.2)) := by
    intro rows
    induction rows with
    | nil => rfl
    | cons e rows ih =>
        unfold liveRows at ih ⊢
        cases hrow : e.2 with
        | none =>
            rw [List.map_cons, List.filter_cons_of_neg (by rw [hrow]; exact Bool.false_ne_true),
              List.filterMap_cons_none (by rw [hrow]; rfl)]
            exact ih
        | some row =>
            rw [List.map_cons, List.filter_cons_of_pos (by rw [hrow]; rfl),
              List.filterMap_cons_some (by rw [hrow]; rfl), List.map_cons, List.map_cons, ih, hrow]
  -- Folding and sorting look at the numbers, not at the cells.
  unfold foldLive
  have hfold : foldNewest Prod.fst ((parts.map Dict.entries).map
      (List.map fun e : Nat × Option Row => (e.1, e.2.isNone, L.cells columns e.2))) =
      (foldNewest Prod.fst (parts.map Dict.entries)).map
        fun e => (e.1, e.2.isNone, L.cells columns e.2) :=
    foldNewest_map _ (fun _ => rfl) _
  have hsort := sortByKey_map (f := fun row => L.cells columns (some row))
    (liveRows (foldNewest Prod.fst (parts.map Dict.entries)))
  rw [hparts, hfold, hlive, ← hsort]

end DataCrystal
