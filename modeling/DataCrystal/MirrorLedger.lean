import DataCrystal.MirrorCrash
import DataCrystal.MirrorFold

/-!
# What a Mirror Stands For

A mirror without its files. For every class the ledger has one table of live rows, each with
the columns it was written under and those of every fold since, and the rows that are
pending. There are no segments, only their number, and no tombstones. A delta makes rows
pending, a flush moves them into the table under the columns they have widened, and a
compaction enters the present columns in the history of every row. That happens on its own as
well, when a flush makes too many segments.

The table of a class is read off the ledger: the live rows by OID, each with the cells of its
history, read under the columns of now. A flush and a compaction enter columns a row is read
under anyway, so they change no table. They do change what later ones are: a row that has
been folded under a tag is read from what that fold has stored.

## Main definitions

* `Ledger`: What the mirror has of one class.
* `Ledger.table`: The table of the class.
* `Ledger.flush`, `Ledger.compact`: What a flush and a compaction do.
* `Ledgers.act`: What an operation does to all classes.
* `Ledger.plain`: The rows without their history.

## Theorems

* `get?_settled`: The rows behind a flush.
* `Ledger.table_flush`, `Ledger.table_compact`: What changes no table.
* `Ledger.table_rows`: The table has the live rows.
* `Ledger.Sound.table`: What the cells are if nothing is lost.
-/

namespace DataCrystal

open Mirror

variable {τ κ : Type} [DecidableEq τ] {L : Columnar τ κ} {types : Types}

/-- What a mirror has of one class: its columns, the number of its segments, the live rows in
    them, and the rows and tombstones that are pending. -/
structure Ledger (τ : Type) where
  columns : Dict String τ := Dict.empty
  segments : Nat := 0
  stored : Dict Nat (Traced τ) := Dict.empty
  pending : Dict Nat (Option Row) := Dict.empty

/-- What a mirror has of all classes. -/
structure Ledgers (τ : Type) where
  types : Lineages := Dict.empty
  watermark : Nat := 0
  appliesSinceFlush : Nat := 0
  classes : String → Ledger τ := fun _ => {}

namespace Ledger

omit [DecidableEq τ] in
/-- The columns, widened by the pending rows. -/
def widened (L : Columnar τ κ) (g : Ledger τ) : Dict String τ :=
  finalState (L.widenRows g.pending.values g.columns)

omit [DecidableEq τ] in
/-- Enter a pending row under some columns, or take away what a tombstone is for. -/
def settle (columns : Dict String τ) (stored : Dict Nat (Traced τ)) (e : Nat × Option Row) :
    Dict Nat (Traced τ) :=
  match e.2 with
  | none => stored.erase e.1
  | some row => stored.set e.1 ⟨row, columns, []⟩

omit [DecidableEq τ] in
/-- The live rows, with the pending ones under some columns. -/
def settled (columns : Dict String τ) (g : Ledger τ) : Dict Nat (Traced τ) :=
  g.pending.entries.foldl (settle columns) g.stored

/-- The table of the class: every live row is read under the columns of now. -/
def table (L : Columnar τ κ) (g : Ledger τ) : Dict String τ × List (Nat × List (String × κ)) :=
  (g.widened L, (sortByKey (g.settled (g.widened L)).entries).map
    fun e => (e.1, L.traced (e.2.fold (g.widened L))))

omit [DecidableEq τ] in
/-- The pending rows are in a segment of their own. -/
def push (L : Columnar τ κ) (g : Ledger τ) : Ledger τ where
  columns := g.widened L
  segments := g.segments + 1
  stored := g.settled (g.widened L)

omit [DecidableEq τ] in
/-- All rows are in one segment, stored again under the columns of the class. -/
def fold (g : Ledger τ) : Ledger τ :=
  { g with segments := 1, stored := g.stored.mapVal fun _ x => x.fold g.columns }

omit [DecidableEq τ] in
/-- A flush, which folds the segments if they are too many. -/
def flush (L : Columnar τ κ) (maxSegments : Nat) (g : Ledger τ) : Ledger τ :=
  if g.pending.entries.isEmpty then g
  else if maxSegments < (g.push L).segments then (g.push L).fold
  else g.push L

omit [DecidableEq τ] in
/-- A compaction, once nothing is pending. -/
def compact (g : Ledger τ) : Ledger τ := if g.segments ≤ 1 then g else g.fold

omit [DecidableEq τ] in
/-- A row or a tombstone becomes pending. -/
def place (e : Nat × Option Row) (g : Ledger τ) : Ledger τ :=
  { g with pending := g.pending.set e.1 e.2 }

omit [DecidableEq τ] in
/-- The row of an OID, without its history. -/
def plain (g : Ledger τ) (oid : Nat) : Option Row :=
  match g.pending.get? oid with
  | some row => row
  | none => (g.stored.get? oid).map Traced.row

end Ledger

namespace Ledgers

omit [DecidableEq τ] in
def flush (L : Columnar τ κ) (params : MirrorParams) (s : Ledgers τ) : Ledgers τ :=
  { s with
    classes := fun typename => (s.classes typename).flush L params.maxSegments
    appliesSinceFlush := 0 }

omit [DecidableEq τ] in
def compact (L : Columnar τ κ) (params : MirrorParams) (s : Ledgers τ) : Ledgers τ :=
  { s.flush L params with classes := fun typename => ((s.flush L params).classes typename).compact }

omit [DecidableEq τ] in
/-- A row of a delta becomes pending. -/
def place (classes : String → Ledger τ) (e : String × Nat × Option Row) : String → Ledger τ :=
  Function.update classes e.1 ((classes e.1).place e.2)

omit [DecidableEq τ] in
/-- The rows of a delta become pending. -/
def takeIn (d : Delta) (batch : List (String × Nat × Option Row)) (s : Ledgers τ) : Ledgers τ where
  types := learn s.types d.types
  watermark := d.tid
  appliesSinceFlush := s.appliesSinceFlush + 1
  classes := batch.foldl place s.classes

omit [DecidableEq τ] in
/-- A delta: it is taken in if it is the next one and can be decoded, and flushed if it is
    time. -/
def apply (L : Columnar τ κ) (types : Types) (params : MirrorParams) (only : Option (List String))
    (d : Delta) (s : Ledgers τ) : Ledgers τ :=
  if checkDeltaHeader d = .ok () ∧ d.tid = s.watermark + 1 then
    match decodeOps types only (learn s.types d.types) d.ops with
    | .error _ => s
    | .ok batch =>
      if params.flushEvery ≤ (s.takeIn d batch).appliesSinceFlush then
        (s.takeIn d batch).flush L params
      else s.takeIn d batch
  else s

omit [DecidableEq τ] in
/-- What an operation does. -/
def act (L : Columnar τ κ) (types : Types) (params : MirrorParams) (only : Option (List String))
    (s : Ledgers τ) : MirrorOp → Ledgers τ
  | .apply d => s.apply L types params only d
  | .flush => s.flush L params
  | .compact => s.compact L params

end Ledgers

section Rows

variable {g : Ledger τ} {columns : Dict String τ}

omit [DecidableEq τ] in
/-- Rows and tombstones of distinct OIDs, entered one after the other. -/
theorem get?_foldl_settle {rows : List (Nat × Option Row)} (hnd : (rows.map Prod.fst).Nodup)
    (oid : Nat) : ∀ stored : Dict Nat (Traced τ),
      (rows.foldl (Ledger.settle columns) stored).get? oid =
        match (rows.find? fun e => e.1 = oid).map Prod.snd with
        | some row => row.map fun row => ⟨row, columns, []⟩
        | none => stored.get? oid := by
  induction rows with
  | nil => exact fun stored => rfl
  | cons e rows ih =>
      intro stored
      rcases e with ⟨k, row⟩
      rw [List.map_cons, List.nodup_cons] at hnd
      rw [List.foldl_cons, ih hnd.2]
      by_cases hk : k = oid
      · subst hk
        -- No later row is for the same OID.
        have hlater : (rows.find? fun e => e.1 = k) = none := by
          rw [List.find?_eq_none]
          intro e he heq
          have hin : e.1 ∈ rows.map Prod.fst := List.mem_map_of_mem he
          rw [of_decide_eq_true heq] at hin
          exact hnd.1 hin
        have hfirst : (((k, row) :: rows).find? fun e => e.1 = k) = some (k, row) :=
          List.find?_cons_of_pos (decide_eq_true rfl)
        rw [hlater, hfirst]
        cases row with
        | none => exact Dict.get?_erase_self _ _
        | some row => exact Dict.get?_set_self _ _ _
      · have hrest : (((k, row) :: rows).find? fun e => e.1 = oid) =
            rows.find? fun e => e.1 = oid := List.find?_cons_of_neg (by simpa using hk)
        rw [hrest]
        cases rows.find? fun e => e.1 = oid with
        | some e => rfl
        | none =>
            cases row with
            | none => exact Dict.get?_erase_ne _ (Ne.symm hk)
            | some row => exact Dict.get?_set_ne _ _ (Ne.symm hk)

omit [DecidableEq τ] in
/-- The live rows behind a flush under some columns. -/
theorem get?_settled (oid : Nat) : (g.settled columns).get? oid =
    match g.pending.get? oid with
    | some row => row.map fun row => ⟨row, columns, []⟩
    | none => g.stored.get? oid :=
  get?_foldl_settle g.pending.nodup oid g.stored

omit [DecidableEq τ] in
/-- Without their history they are the same under all columns. -/
theorem settled_row (oid : Nat) :
    ((g.settled columns).get? oid).map Traced.row = g.plain oid := by
  rw [get?_settled, Ledger.plain]
  cases g.pending.get? oid with
  | some row => cases row <;> rfl
  | none => rfl

end Rows

section Tables

variable {g : Ledger τ}

namespace Ledger

/-- Folding what is not pending changes no table: the rows have been read under the columns
    already. -/
theorem table_fold (h : g.pending = Dict.empty) : g.fold.table L = g.table L := by
  have hwidened : g.widened L = g.columns := by
    rw [widened, h]
    rfl
  have hwidened' : g.fold.widened L = g.columns := by
    rw [widened, fold, h]
    rfl
  have hsettled : ∀ columns, g.settled columns = g.stored := by
    intro columns
    rw [settled, h]
    rfl
  have hsettled' : ∀ columns, g.fold.settled columns =
      g.stored.mapVal fun _ x => x.fold g.columns := by
    intro columns
    rw [settled, fold, h]
    rfl
  have hentries : (g.stored.mapVal fun _ x => x.fold g.columns).entries =
      g.stored.entries.map fun e => (e.1, e.2.fold g.columns) := rfl
  rw [table, table, hwidened, hwidened', hsettled, hsettled', hentries,
    ← sortByKey_map (f := Traced.fold g.columns), List.map_map]
  congr 1
  refine List.map_congr_left fun e _ => ?_
  dsimp only [Function.comp]
  rw [traced_fold_self (Traced.tags_fold g.columns e.2)]

/-- A flush changes no table. -/
theorem table_flush (maxSegments : Nat) : (g.flush L maxSegments).table L = g.table L := by
  have hpush : (g.push L).table L = g.table L := rfl
  unfold flush
  split
  · rfl
  · split
    · rw [table_fold rfl, hpush]
    · exact hpush

/-- Nor does a compaction, once nothing is pending. -/
theorem table_compact (h : g.pending = Dict.empty) : g.compact.table L = g.table L := by
  unfold compact
  split
  · rfl
  · exact table_fold h

omit [DecidableEq τ] in
/-- Behind a flush nothing is pending. -/
theorem pending_flush (maxSegments : Nat) : (g.flush L maxSegments).pending = Dict.empty := by
  unfold flush
  split
  · next h => exact Dict.entries_injective (List.isEmpty_iff.mp h)
  · split <;> rfl

/-- A row of the table for a live row: its cells are those of the history, read under the
    columns of now. -/
def Shows (L : Columnar τ κ) (g : Ledger τ) (r : Nat × List (String × κ)) (e : Nat × Row) : Prop :=
  r.1 = e.1 ∧ ∃ x, (g.settled (g.widened L)).get? e.1 = some x ∧ x.row = e.2 ∧
    r.2 = L.traced (x.fold (g.widened L))

/-- The table has the live rows, in the order of the OIDs. -/
theorem table_rows {tbl : Dict Nat Row} (h : ∀ oid, g.plain oid = tbl.get? oid) :
    List.Forall₂ (g.Shows L) (g.table L).2 (sortByKey tbl.entries) := by
  have hrows := sortByKey_rewritten (d := g.settled (g.widened L)) (f := Traced.row)
    fun oid => (settled_row oid).trans (h oid)
  rw [← hrows]
  change List.Forall₂ _ (List.map _ _) _
  rw [List.forall₂_map_left_iff, List.forall₂_map_right_iff, List.forall₂_same]
  intro e he
  exact ⟨rfl, e.2, (Dict.get?_eq_some_iff _ _ _).mpr ((List.mem_insertionSort _).mp he), rfl, rfl⟩

end Ledger

end Tables

section Plain

variable {g : Ledger τ}

namespace Ledger

omit [DecidableEq τ] in
theorem plain_push (oid : Nat) : (g.push L).plain oid = g.plain oid := by
  have hrow : ((g.settled (g.widened L)).get? oid).map Traced.row = g.plain oid := settled_row oid
  rw [← hrow]
  rfl

omit [DecidableEq τ] in
theorem plain_fold (oid : Nat) : g.fold.plain oid = g.plain oid := by
  unfold plain fold
  dsimp only
  rw [Dict.get?_mapVal]
  cases g.stored.get? oid <;> rfl

omit [DecidableEq τ] in
/-- A flush leaves the rows. -/
theorem plain_flush (maxSegments oid : Nat) :
    (g.flush L maxSegments).plain oid = g.plain oid := by
  unfold flush
  split
  · rfl
  · split
    · rw [plain_fold, plain_push]
    · exact plain_push oid

omit [DecidableEq τ] in
theorem plain_compact (oid : Nat) : g.compact.plain oid = g.plain oid := by
  unfold compact
  split
  · rfl
  · exact plain_fold oid

omit [DecidableEq τ] in
theorem plain_place (e : Nat × Option Row) (oid : Nat) :
    (g.place e).plain oid = if oid = e.1 then e.2 else g.plain oid := by
  unfold plain place
  dsimp only
  rw [Dict.get?_set]
  by_cases h : oid = e.1
  · rw [if_pos h, if_pos h]
  · rw [if_neg h, if_neg h]

end Ledger

omit [DecidableEq τ] in
/-- Placing the rows of a delta in the ledgers places them in the tables. -/
theorem plain_places (batch : List (String × Nat × Option Row)) :
    ∀ (classes : String → Ledger τ) (tables : String → Dict Nat Row),
      (∀ typename oid, (classes typename).plain oid = (tables typename).get? oid) →
      ∀ typename oid, (batch.foldl Ledgers.place classes typename).plain oid =
        (batch.foldl Folded.place tables typename).get? oid := by
  induction batch with
  | nil => exact fun _ _ h => h
  | cons e batch ih =>
      intro classes tables h
      refine ih _ _ fun typename oid => ?_
      unfold Ledgers.place Folded.place
      by_cases hclass : typename = e.1
      · rw [hclass, Function.update_self, if_pos rfl, Ledger.plain_place]
        cases hrow : e.2.2 with
        | none =>
            dsimp only
            rw [Dict.get?_erase]
            split
            · rfl
            · exact h e.1 oid
        | some row =>
            dsimp only
            rw [Dict.get?_set]
            split
            · rfl
            · exact h e.1 oid
      · rw [Function.update_of_ne hclass, if_neg hclass]
        exact h typename oid

end Plain

section Sound

variable {V : ColumnValues} {g : Ledger τ} {recent : Dict Nat (Option Row)}

/-- Rows a class can take: their values are among those of its columns, and no field has a
    reserved name. -/
def Recordable (V : ColumnValues) (recent : Dict Nat (Option Row)) : Prop :=
  ∀ row, some row ∈ recent.values → ∀ name v, row.get? name = some v →
    V name v ∧ name ≠ oidCol ∧ name ≠ deletedCol

omit [DecidableEq τ] in
/-- A field without a reserved name widens its column. -/
theorem widenField_ok {e : String × Val Token} (h : e.1 ≠ oidCol ∧ e.1 ≠ deletedCol)
    (cs : Dict String τ) : ∃ cs', L.widenField e cs = .ok () cs' := by
  unfold Columnar.widenField
  have hfree : (decide (e.1 = oidCol) || decide (e.1 = deletedCol)) = false := by
    rw [decide_eq_false h.1, decide_eq_false h.2]
    rfl
  rw [hfree]
  exact ⟨_, rfl⟩

omit [DecidableEq τ] in
/-- Rows the class can take widen its columns, and fit them. -/
theorem widenRows_spec {cs : Dict String τ} (hreached : Reached L V cs) (h : Recordable V recent) :
    ∃ columns, L.widenRows recent.values cs = .ok () columns ∧ Moved L V cs columns ∧
      ∀ row, some row ∈ recent.values → RowFits L V columns row := by
  have hrow : ∀ row ∈ recent.values, ∀ cs : Dict String τ, ∃ cs', L.widenRow row cs = .ok () cs' := by
    intro row hmem
    cases row with
    | none => exact fun cs => ⟨cs, rfl⟩
    | some row =>
        intro cs
        have hfields : ∀ e ∈ row.entries, ∀ cs : Dict String τ, True →
            ∃ cs', L.widenField e cs = .ok () cs' ∧ True := by
          intro e he cs _
          have hfree := (h row hmem e.1 e.2 ((Dict.get?_eq_some_iff _ _ _).mpr he)).2
          rcases widenField_ok hfree cs with ⟨cs', hcs'⟩
          exact ⟨cs', hcs', trivial⟩
        rcases forM_run_ok hfields trivial with ⟨cs', hcs', -⟩
        exact ⟨cs', hcs'⟩
  have hrows : ∃ columns, L.widenRows recent.values cs = .ok () columns ∧ True :=
    forM_run_ok (fun row hmem cs _ => (hrow row hmem cs).imp fun _ h => ⟨h, trivial⟩) trivial
  rcases hrows with ⟨columns, hrun, -⟩
  have hleads := widenRows_leads (L := L) cs recent.values
    (fun row hmem name v hget => (h row hmem name v hget).1) cs ⟨ColumnsWiden.refl cs, hreached⟩
  rw [hrun] at hleads
  exact ⟨columns, hrun, hleads.1, hleads.2⟩

/-- The columns come from values, the rows fit the columns they were written under, and the
    pending ones can be taken. -/
structure Ledger.Sound (L : Columnar τ κ) (V : ColumnValues) (g : Ledger τ) : Prop where
  reached : Reached L V g.columns
  stored : ∀ oid x, g.stored.get? oid = some x → x.Sound L V g.columns
  recordable : Recordable V g.pending

namespace Ledger.Sound

omit [DecidableEq τ] in
/-- The pending rows widen the columns, and fit them then. -/
theorem widen (h : g.Sound L V) :
    L.widenRows g.pending.values g.columns = .ok () (g.widened L) ∧
      Moved L V g.columns (g.widened L) ∧
      ∀ row, some row ∈ g.pending.values → RowFits L V (g.widened L) row := by
  rcases widenRows_spec h.reached h.recordable with ⟨columns, hrun, hmoved, hfits⟩
  have hcolumns : g.widened L = columns := by
    rw [Ledger.widened, hrun]
    rfl
  rw [hcolumns]
  exact ⟨hrun, hmoved, hfits⟩

omit [DecidableEq τ] in
theorem settled (h : g.Sound L V) {oid : Nat} {x : Traced τ}
    (hx : (g.settled (g.widened L)).get? oid = some x) : x.Sound L V (g.widened L) := by
  rcases h.widen with ⟨-, hmoved, hfits⟩
  rw [get?_settled] at hx
  cases hrow : g.pending.get? oid with
  | some row =>
      rw [hrow] at hx
      rcases Option.map_eq_some_iff.mp hx with ⟨row', hrow', rfl⟩
      rw [hrow'] at hrow
      exact ⟨hfits row' (List.mem_map_of_mem (f := Prod.snd) ((Dict.get?_eq_some_iff _ _ _).mp hrow)),
        trivial, ColumnsWiden.refl _⟩
  | none =>
      rw [hrow] at hx
      exact (h.stored oid x hx).widen hmoved.widens

omit [DecidableEq τ] in
theorem push (h : g.Sound L V) : (g.push L).Sound L V where
  reached := h.widen.2.1.reached
  stored _ _ hx := h.settled hx
  recordable _ hrow := absurd hrow List.not_mem_nil

omit [DecidableEq τ] in
theorem fold (h : g.Sound L V) : g.fold.Sound L V where
  reached := h.reached
  stored oid x hx := by
    change (g.stored.mapVal _).get? oid = some x at hx
    rw [Dict.get?_mapVal] at hx
    rcases Option.map_eq_some_iff.mp hx with ⟨y, hy, rfl⟩
    exact (h.stored oid y hy).fold
  recordable := h.recordable

omit [DecidableEq τ] in
theorem flush (h : g.Sound L V) (maxSegments : Nat) : (g.flush L maxSegments).Sound L V := by
  unfold Ledger.flush
  split
  · exact h
  · split
    · exact h.push.fold
    · exact h.push

omit [DecidableEq τ] in
theorem compact (h : g.Sound L V) : g.compact.Sound L V := by
  unfold Ledger.compact
  split
  · exact h
  · exact h.fold

omit [DecidableEq τ] in
theorem place (h : g.Sound L V) {e : Nat × Option Row}
    (he : ∀ row, e.2 = some row → ∀ name v, row.get? name = some v →
      V name v ∧ name ≠ oidCol ∧ name ≠ deletedCol) : (g.place e).Sound L V where
  reached := h.reached
  stored := h.stored
  recordable row hrow := by
    rcases List.mem_map.mp hrow with ⟨⟨oid, row'⟩, hmem, hsnd⟩
    have hget := (Dict.get?_eq_some_iff _ _ _).mpr hmem
    change (g.pending.set e.1 e.2).get? oid = some row' at hget
    dsimp only at hsnd
    rw [hsnd, Dict.get?_set] at hget
    by_cases hoid : oid = e.1
    · rw [if_pos hoid, Option.some_inj] at hget
      exact he row hget
    · rw [if_neg hoid] at hget
      exact h.recordable row
        (List.mem_map_of_mem (f := Prod.snd) ((Dict.get?_eq_some_iff _ _ _).mp hget))

/-- With a layer that loses nothing the table has the cells of the rows. -/
theorem table (h : g.Sound L V) (hreread : ∀ name, Rereads L (V name)) {tbl : Dict Nat Row}
    (hplain : ∀ oid, g.plain oid = tbl.get? oid) :
    (g.table L).2 = Mirror.rendered L (g.table L).1 tbl := by
  unfold Mirror.rendered
  rw [← List.forall₂_eq_eq_eq, List.forall₂_map_right_iff]
  refine (Ledger.table_rows hplain).imp ?_
  rintro r e ⟨hoid, x, hx, hrow, hcells⟩
  refine Prod.ext hoid ?_
  rw [hcells, (h.settled hx).cells hreread, hrow]
  rfl

end Ledger.Sound

omit [DecidableEq τ] in
/-- Rows the classes can take leave the ledgers sound. -/
theorem sound_places {W : String → ColumnValues} (batch : List (String × Nat × Option Row)) :
    (∀ typename oid row, (typename, oid, some row) ∈ batch → ∀ name v, row.get? name = some v →
      W typename name v ∧ name ≠ oidCol ∧ name ≠ deletedCol) →
    ∀ classes : String → Ledger τ, (∀ typename, (classes typename).Sound L (W typename)) →
      ∀ typename, (batch.foldl Ledgers.place classes typename).Sound L (W typename) := by
  induction batch with
  | nil => exact fun _ _ h => h
  | cons e batch ih =>
      intro hrows classes h
      refine ih (fun typename oid row hmem => hrows typename oid row (List.mem_cons_of_mem e hmem))
        _ fun typename => ?_
      unfold Ledgers.place
      by_cases hclass : typename = e.1
      · rw [hclass, Function.update_self]
        refine (h e.1).place fun row hrow => hrows e.1 e.2.1 row ?_
        rw [← hrow]
        exact List.mem_cons_self
      · rw [Function.update_of_ne hclass]
        exact h typename

end Sound

end DataCrystal
