import Mathlib.Data.List.Sort
import DataCrystal.FullText

/-!
# The Fenced Search

A search through a snapshot gives the hits its principal may read. The sidecar ranks
the matching documents, the snapshot resolves each to a view, and a document whose
record is gone, is denied or is of a class nobody knows is no hit.

How far down the ranking the first `limit` hits lie is not known, so the search reads
a window of the ranking and doubles it until there are enough hits, the ranking ends
or `scan_cap` is reached. Every round runs the query again and judges the rows behind
those that are judged already. `Scanned` is what relates the window, the judged rows
and the hits; `scanRound_scanned` is that a round keeps it, and each of the three
exits turns it into the result.

What the snapshot's core caches is what it would read again, so the views are read
here every time. The excerpts of a hit are a parameter.

## Main definitions

* `Snapshot.classify`, `Snapshot.getMany`: The deref seam of a bound snapshot.
* `RankedRow`, `ranked`: The ranking of the sidecar.
* `scanRound`, `scanRows`, `searchFenced`: The search.
* `readableRow`: A row that is a hit.

## Theorems

* `pairwise_ranked`, `perm_ranked`: The ranking.
* `getMany_survivors`: What a batch gives.
* `scanRound_scanned`: What a round keeps.
* `scanRows_spec`: The loop.
* `search_fenced`: The hits of a search.
-/

namespace DataCrystal

/-- What a principal gets to see of a view. -/
inductive Verdict
  | ok
  /-- A protected record that is denied. -/
  | twin
  /-- A record with labels of a class nobody knows. -/
  | deny
  deriving DecidableEq

/-- What the deref of an OID gives, if it gives anything. -/
inductive Resolved
  | view (v : EntityView)
  | redacted (oid : Nat) (typename : String)

/-- The labels among the values of a view. -/
def EntityView.labels (v : EntityView) : Labels where
  owner := ((v.values.get? "_dc_owner").bind Val.toInt?).getD 0
  groups := ((v.values.get? "_dc_groups").bind Val.toInts?).getD []
  readFloor := ((v.values.get? "_dc_read_floor").bind Val.toInt?).getD 0
  writeFloor := ((v.values.get? "_dc_write_floor").bind Val.toInt?).getD 0

namespace Snapshot

variable (types : Types) (s : Snapshot) (p : Principal)

/-- The verdict of a principal on a view. -/
def classify (v : EntityView) : Verdict :=
  match types.known v.typename with
  -- No live class to enforce labels with: open without them, else for root alone.
  | none => if !v.values.contains "_dc_owner" || isRoot p then .ok else .deny
  | some ti =>
    if !ti.isProtected || isRoot p then .ok
    else if canReadRow p v.labels.owner v.labels.groups v.labels.readFloor then .ok
    -- The record is there, and the reader gets a twin of it.
    else .twin

/-- The view of an OID, if it has a record. -/
def viewTolerant (oid : Nat) : Except SnapshotErr (Option EntityView) :=
  match s.view.objects.get? oid with
  | none => .ok none
  | some rec => (s.materialize types rec).map some

/-- What a principal is given of a view. -/
def fenced (v : EntityView) : Option Resolved :=
  match classify types p v with
  | .ok => some (.view v)
  | .twin => some (.redacted v.oid v.typename)
  | .deny => none

/-- Resolve a batch of OIDs, each to what the principal is given of it. -/
def getMany (oids : List Nat) : Except SnapshotErr (List (Option Resolved)) := do
  let views ← oids.mapM (s.viewTolerant types)
  .ok (views.map fun v => v.bind (fenced types p))

end Snapshot

/-- A row of the ranking: a document with its rank, the best ones lowest. -/
structure RankedRow where
  oid : Nat
  typename : String
  rank : ℚ
  deriving DecidableEq

/-- `ORDER BY r, rowid`. -/
def RankedRow.before (a b : RankedRow) : Bool := a.rank < b.rank || (a.rank = b.rank && a.oid ≤ b.oid)

/-- The matching documents in the order of the query. -/
def ranked (matched : List RankedRow) : List RankedRow :=
  matched.insertionSort fun a b => a.before b = true

theorem RankedRow.before_iff (a b : RankedRow) : a.before b = true ↔
    a.rank < b.rank ∨ a.rank = b.rank ∧ a.oid ≤ b.oid := by
  simp [RankedRow.before]

/-- Best first, and by the row id among equals. -/
theorem pairwise_ranked (matched : List RankedRow) :
    (ranked matched).Pairwise fun a b => a.before b = true := by
  have htotal : Std.Total fun a b : RankedRow => a.before b = true := ⟨fun a b => by
    rw [RankedRow.before_iff, RankedRow.before_iff]
    rcases lt_trichotomy a.rank b.rank with hlt | heq | hgt
    · exact Or.inl (Or.inl hlt)
    · rcases le_total a.oid b.oid with hle | hle
      · exact Or.inl (Or.inr ⟨heq, hle⟩)
      · exact Or.inr (Or.inr ⟨heq.symm, hle⟩)
    · exact Or.inr (Or.inl hgt)⟩
  have htrans : IsTrans RankedRow fun a b => a.before b = true := ⟨fun a b c hab hbc => by
    rw [RankedRow.before_iff] at hab hbc ⊢
    rcases hab with hab | ⟨hab, hle⟩
    · rcases hbc with hbc | ⟨hbc, -⟩
      · exact Or.inl (hab.trans hbc)
      · exact Or.inl (hbc ▸ hab)
    · rcases hbc with hbc | ⟨hbc, hle'⟩
      · exact Or.inl (hab ▸ hbc)
      · exact Or.inr ⟨hab.trans hbc, hle.trans hle'⟩⟩
  exact List.pairwise_insertionSort _ _

theorem perm_ranked (matched : List RankedRow) : (ranked matched).Perm matched :=
  List.perm_insertionSort _ _

/-- A hit: the document, its score and an excerpt of each field with a match. -/
structure SearchHit where
  oid : Nat
  typename : String
  score : ℚ
  snippets : List (String × String)

namespace FullTextIndex

/-- The excerpts of a view, by the language the field is indexed in. -/
def snippetsFromView (highlight : String → Option String → Option String) (idx : FullTextIndex)
    (v : EntityView) (typename : String) : List (String × String) :=
  idx.fulltext.fields.filterMap fun f =>
    match (idx.fulltext.getD typename Dict.empty).get? f, (v.values.get? f).bind Val.text with
    | some language, some text =>
      -- The text of the view, never the copy in the index.
      if text = "" then none else (highlight text language).map fun excerpt => (f, excerpt)
    | _, _ => none

/-- Where a search stands between two rounds. -/
structure Scan where
  survivors : List (RankedRow × EntityView) := []
  /-- How many rows of the ranking are judged. -/
  examined : Nat := 0
  window : Nat
  /-- The rows that were judged, in order. Nothing reads it. -/
  judged : List RankedRow := []

/-- A row that survives the fence. -/
def survivor (e : RankedRow × Option Resolved) : Option (RankedRow × EntityView) :=
  match e.2 with
  | some (.view v) => some (e.1, v)
  | _ => none

section Search

variable (types : Types) (s : Snapshot) (p : Principal) (rows : List RankedRow) (limit scanCap : Nat)

/-- Resolve the rows of a round; the snapshot is not asked if there are none. -/
def resolveRows (newRows : List RankedRow) : Except SnapshotErr (List (Option Resolved)) :=
  if newRows.isEmpty then .ok [] else s.getMany types p (newRows.map RankedRow.oid)

/-- One round: fetch the window and judge what is new in it. -/
def scanRound (scan : Scan) : Except SnapshotErr Scan := do
  let fetched := rows.take (min scan.window scanCap)
  -- The ranking is the same in every round, so a prefix of it was judged.
  let newRows := fetched.drop scan.examined
  let resolved ← resolveRows types s p newRows
  .ok { scan with
    survivors := scan.survivors ++ (newRows.zip resolved).filterMap survivor
    examined := fetched.length
    judged := scan.judged ++ newRows }

/-- The rounds of a search: it ends with enough hits, at the end of the ranking, or
    at the cap. Nothing is returned if `fuel` runs out. -/
def scanRows : Nat → Scan → Except SnapshotErr (Option Scan)
  | 0, _ => .ok none
  | fuel + 1, scan => do
    let next ← scanRound types s p rows scanCap scan
    -- The window is what the ranking is asked for in this round.
    let fetch := min scan.window scanCap
    if limit ≤ next.survivors.length then .ok (some next)
    -- The ranking gave less than it was asked for: there is no more.
    else if next.examined < fetch then .ok (some next)
    -- The most that is examined for one search.
    else if scanCap ≤ fetch then .ok (some next)
    else scanRows fuel { next with window := next.window * 2 }

end Search

/-- The hits a principal may read among the matching documents, and the rows that
    were judged for them. -/
def searchFenced (types : Types) (highlight : String → Option String → Option String)
    (idx : FullTextIndex) (matched : List RankedRow) (limit : Nat) (s : Snapshot) (p : Principal)
    (scanCap : Nat) : Except SnapshotErr (Option (List SearchHit × List RankedRow)) := do
  let found ← scanRows types s p (ranked matched) limit scanCap (scanCap + 1)
    -- Over-fetch: some of the first rows may be denied.
    { window := max limit 1 * 4 }
  .ok (found.map fun scan =>
    ((scan.survivors.take limit).map fun e =>
      -- The rank of the ranking is the lower the better.
      ⟨e.1.oid, e.1.typename, -e.1.rank, idx.snippetsFromView highlight e.2 e.1.typename⟩,
      scan.judged))

/-- A row that is a hit of the principal: the snapshot gives a view of it that is not
    redacted. -/
def readableRow (types : Types) (s : Snapshot) (p : Principal) (row : RankedRow) :
    Option (RankedRow × EntityView) :=
  match s.getMany types p [row.oid] with
  | .ok [some (.view v)] => some (row, v)
  | _ => none

section Batches

variable {types : Types} {s : Snapshot} {p : Principal}

theorem getMany_cons (oid : Nat) (oids : List Nat) : s.getMany types p (oid :: oids) =
    s.viewTolerant types oid >>= fun v => (s.getMany types p oids).map fun rest =>
      v.bind (Snapshot.fenced types p) :: rest := by
  unfold Snapshot.getMany
  rw [List.mapM_cons]
  cases s.viewTolerant types oid with
  | error e => rfl
  | ok v => cases oids.mapM (s.viewTolerant types) <;> rfl

theorem getMany_one (oid : Nat) : s.getMany types p [oid] =
    (s.viewTolerant types oid).map fun v => [v.bind (Snapshot.fenced types p)] := by
  rw [getMany_cons]
  cases s.viewTolerant types oid <;> rfl

/-- A batch that is resolved gives of each row what it gives of the row alone. -/
theorem getMany_survivors : ∀ {rows : List RankedRow} {resolved : List (Option Resolved)},
    s.getMany types p (rows.map RankedRow.oid) = .ok resolved →
    (rows.zip resolved).filterMap survivor = rows.filterMap (readableRow types s p) := by
  intro rows
  induction rows with
  | nil => exact fun _ => rfl
  | cons row rows ih =>
      intro resolved h
      rw [List.map_cons, getMany_cons] at h
      rcases except_bind_ok_iff.mp h with ⟨v, hv, h⟩
      cases hrest : s.getMany types p (rows.map RankedRow.oid) with
      | error e =>
          rw [hrest] at h
          cases h
      | ok rest =>
      rw [hrest] at h
      cases h
      have hone : s.getMany types p [row.oid] = .ok [v.bind (Snapshot.fenced types p)] := by
        rw [getMany_one, hv]
        rfl
      have hrow : survivor (row, v.bind (Snapshot.fenced types p)) = readableRow types s p row := by
        unfold readableRow survivor
        rw [hone]
        cases v.bind (Snapshot.fenced types p) with
        | none => rfl
        | some r => cases r <;> rfl
      rw [List.zip_cons_cons, List.filterMap_cons, List.filterMap_cons, hrow, ih hrest]

/-- A batch that raises has a row that raises. -/
theorem getMany_error {e : SnapshotErr} : ∀ {rows : List RankedRow},
    s.getMany types p (rows.map RankedRow.oid) = .error e →
    ∃ row ∈ rows, s.getMany types p [row.oid] = .error e := by
  intro rows
  induction rows with
  | nil =>
      intro h
      cases h
  | cons row rows ih =>
      intro h
      rw [List.map_cons, getMany_cons] at h
      cases hv : s.viewTolerant types row.oid with
      | error e' =>
          rw [hv] at h
          cases h
          refine ⟨row, List.mem_cons_self, ?_⟩
          rw [getMany_one, hv]
          rfl
      | ok v =>
          rw [hv] at h
          cases hrest : s.getMany types p (rows.map RankedRow.oid) with
          | ok rest =>
              simp only [hrest] at h
              cases h
          | error e' =>
              simp only [hrest] at h
              cases h
              rcases ih hrest with ⟨row', hmem, hrow⟩
              exact ⟨row', List.mem_cons_of_mem _ hmem, hrow⟩

theorem resolveRows_eq (newRows : List RankedRow) :
    resolveRows types s p newRows = s.getMany types p (newRows.map RankedRow.oid) := by
  unfold resolveRows
  split
  · rename_i hempty
    rw [List.isEmpty_iff.mp hempty]
    rfl
  · rfl

end Batches

section Rounds

variable {types : Types} {s : Snapshot} {p : Principal} {rows : List RankedRow}
  {limit scanCap : Nat} {scan next : Scan}

/-- The invariant: what is judged is the top of the ranking, within the window, and
    the survivors are its hits. -/
structure Scanned (types : Types) (s : Snapshot) (p : Principal) (rows : List RankedRow)
    (scanCap : Nat) (scan : Scan) : Prop where
  judged : scan.judged = rows.take scan.examined
  survivors : scan.survivors = scan.judged.filterMap (readableRow types s p)
  examined : scan.examined ≤ min scan.window scanCap

/-- A round judges the rows of its window that are not judged yet. -/
theorem scanRound_scanned (h : Scanned types s p rows scanCap scan)
    (hround : scanRound types s p rows scanCap scan = .ok next) :
    next.window = scan.window ∧ next.judged = rows.take (min scan.window scanCap) ∧
      next.examined = min (min scan.window scanCap) rows.length ∧
      Scanned types s p rows scanCap next := by
  rcases except_bind_ok_iff.mp hround with ⟨resolved, hresolved, hnext⟩
  cases hnext
  rw [resolveRows_eq] at hresolved
  have hjudged : scan.judged ++ (rows.take (min scan.window scanCap)).drop scan.examined =
      rows.take (min scan.window scanCap) := by
    rw [h.judged]
    conv_rhs => rw [← List.take_append_drop scan.examined (rows.take (min scan.window scanCap))]
    rw [List.take_take, min_eq_left h.examined]
  refine ⟨rfl, hjudged, List.length_take, ⟨?_, ?_, ?_⟩⟩
  · dsimp only
    rw [hjudged, List.length_take]
    exact (List.take_eq_take_min ..)
  · dsimp only
    rw [getMany_survivors hresolved, h.survivors, List.filterMap_append]
  · dsimp only
    rw [List.length_take]
    exact min_le_left _ _

theorem scanRound_error {e : SnapshotErr}
    (hround : scanRound types s p rows scanCap scan = .error e) :
    ∃ row ∈ rows.take scanCap, s.getMany types p [row.oid] = .error e := by
  unfold scanRound at hround
  simp only [resolveRows_eq] at hround
  cases hrows : s.getMany types p
      (((rows.take (min scan.window scanCap)).drop scan.examined).map RankedRow.oid) with
  | ok resolved =>
      rw [hrows] at hround
      cases hround
  | error e' =>
      rw [hrows] at hround
      cases hround
      rcases getMany_error hrows with ⟨row, hmem, hrow⟩
      have htake : row ∈ rows.take (min scan.window scanCap) := List.mem_of_mem_drop hmem
      exact ⟨row, (List.take_prefix_take_left (min_le_right _ _)).subset htake, hrow⟩

/-- What a search returns with: the hits among the rows up to the cap, as many as were
    asked for, and a ranking that is judged from the top, to the cap if hits are
    lacking. -/
structure Found (types : Types) (s : Snapshot) (p : Principal) (rows : List RankedRow)
    (limit scanCap : Nat) (scan : Scan) : Prop where
  survivors : scan.survivors.take limit =
    ((rows.take scanCap).filterMap (readableRow types s p)).take limit
  judged : scan.judged <+: rows.take scanCap
  exhausted : scan.survivors.length < limit → scan.judged = rows.take scanCap

/-- The first exit: there are enough hits. -/
theorem Scanned.found_enough (h : Scanned types s p rows scanCap scan)
    (hlimit : limit ≤ scan.survivors.length) : Found types s p rows limit scanCap scan := by
  have hprefix : scan.judged <+: rows.take scanCap := by
    rw [h.judged]
    exact List.take_prefix_take_left (h.examined.trans (min_le_right _ _))
  refine ⟨?_, hprefix, fun hlt => absurd hlt (Nat.not_lt.mpr hlimit)⟩
  rcases hprefix with ⟨rest, hrest⟩
  rw [← hrest, List.filterMap_append, ← h.survivors, List.take_append_of_le_length hlimit]

/-- The other exits: everything up to the cap is judged. -/
theorem Scanned.found_all (h : Scanned types s p rows scanCap scan)
    (hall : scan.judged = rows.take scanCap) : Found types s p rows limit scanCap scan := by
  refine ⟨?_, hall ▸ List.prefix_refl _, fun _ => hall⟩
  rw [h.survivors, hall]

/-- The loop ends, and with the hits among the rows up to the cap, or raises what one
    of those rows raises. The window grows by one at least in each round. -/
theorem scanRows_spec : ∀ (fuel : Nat) {scan : Scan}, Scanned types s p rows scanCap scan →
    0 < scan.window → scanCap < scan.window + fuel → 0 < fuel →
    match scanRows types s p rows limit scanCap fuel scan with
    | .ok none => False
    | .ok (some found) => Found types s p rows limit scanCap found
    | .error e => ∃ row ∈ rows.take scanCap, s.getMany types p [row.oid] = .error e := by
  intro fuel
  induction fuel with
  | zero => exact fun _ _ _ hfuel => absurd hfuel (Nat.lt_irrefl 0)
  | succ fuel ih =>
      intro scan h hwindow hfuel _
      cases hround : scanRound types s p rows scanCap scan with
      | error e =>
          simp only [scanRows, hround]
          exact scanRound_error hround
      | ok next =>
          rcases scanRound_scanned h hround with ⟨hsame, hjudged, hexamined, hnext⟩
          simp only [scanRows, hround]
          show match (if limit ≤ next.survivors.length then _ else _ :
            Except SnapshotErr (Option Scan)) with | .ok none => _ | .ok (some found) => _ | .error e => _
          -- Enough hits.
          by_cases hlimit : limit ≤ next.survivors.length
          · rw [if_pos hlimit]
            exact hnext.found_enough hlimit
          · rw [if_neg hlimit]
            -- The ranking is at its end: what was judged is all of it.
            by_cases hshort : next.examined < min scan.window scanCap
            · rw [if_pos hshort]
              refine hnext.found_all ?_
              have hlen : rows.length ≤ min scan.window scanCap := by omega
              rw [hjudged, List.take_of_length_le hlen,
                List.take_of_length_le (hlen.trans (min_le_right _ _))]
            · rw [if_neg hshort]
              -- The cap is reached: what was judged is all of it up to the cap.
              by_cases hcap : scanCap ≤ min scan.window scanCap
              · rw [if_pos hcap]
                exact hnext.found_all (by rw [hjudged, le_antisymm (min_le_right _ _) hcap])
              · rw [if_neg hcap]
                -- The window doubles, so the fuel that is left is enough.
                refine ih ⟨hnext.judged, hnext.survivors, ?_⟩ ?_ ?_ ?_
                · dsimp only
                  omega
                · dsimp only
                  omega
                · dsimp only
                  omega
                · omega

end Rounds

section Results

/-- A fenced search ranks the matching documents, best first and by the row id among equals.
    It gives the first readable hits of the ranking, up to the cap, and judges the ranking from
    the top, each row once; it raises only what the snapshot raises for one of those rows. -/
theorem search_fenced (types : Types) (highlight : String → Option String → Option String)
    (idx : FullTextIndex) (matched : List RankedRow) (limit : Nat) (s : Snapshot) (p : Principal)
    (scanCap : Nat) :
    ((ranked matched).Pairwise fun a b => a.before b = true) ∧ (ranked matched).Perm matched ∧
    match searchFenced types highlight idx matched limit s p scanCap with
    | .ok none => False
    | .ok (some (hits, judged)) =>
        hits = ((((ranked matched).take scanCap).filterMap (readableRow types s p)).take limit).map
          (fun e => ⟨e.1.oid, e.1.typename, -e.1.rank,
            idx.snippetsFromView highlight e.2 e.1.typename⟩) ∧
        judged <+: (ranked matched).take scanCap ∧
        (hits.length < limit → judged = (ranked matched).take scanCap)
    | .error e => ∃ row ∈ (ranked matched).take scanCap, s.getMany types p [row.oid] = .error e := by
  refine ⟨pairwise_ranked matched, perm_ranked matched, ?_⟩
  have hstart : Scanned types s p (ranked matched) scanCap { window := max limit 1 * 4 } :=
    ⟨rfl, rfl, Nat.zero_le _⟩
  have hspec := @scanRows_spec types s p (ranked matched) limit scanCap (scanCap + 1) _ hstart
    (by dsimp only; omega) (by dsimp only; omega) (Nat.succ_pos _)
  unfold searchFenced
  cases hrows : scanRows types s p (ranked matched) limit scanCap (scanCap + 1)
      { window := max limit 1 * 4 } with
  | error e =>
      rw [hrows] at hspec
      exact hspec
  | ok found =>
      rw [hrows] at hspec
      cases found with
      | none => exact hspec
      | some scan =>
          refine ⟨by rw [← hspec.survivors], hspec.judged, fun hlt => hspec.exhausted ?_⟩
          rw [List.length_map, List.length_take] at hlt
          omega

end Results

end FullTextIndex

end DataCrystal
