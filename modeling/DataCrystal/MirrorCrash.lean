import DataCrystal.MirrorFlush

/-!
# Mirrors over Crashes

A mirror that is opened again has the table of every class as the deltas up to
its manifest make it, wherever the process before it was cut off. There is one
hole. A segment that compaction wrote is not synced before the manifest names it,
and the segments it replaces are removed. Until the file system has written it
on its own account, a crash takes the rows of the class with it.

The theorem is about crashes that take no such file. It also asks that a value
which was stored under one tag can be stored again under a later one, which is a
property of the values.

## Main definitions

* `MirrorEvent.Spared`: The events of the theorem.
* `Mirror.rendered`: The table a class should have.

## Theorems

* `open_resting`: Opening a mirror.
* `Resting.table`: The table of a class.
* `mirror_survives_crash`: A mirror survives a crash that spares its segments.
-/

namespace DataCrystal

open Mirror

variable {τ κ : Type} [DecidableEq τ] {L : Columnar τ κ} {V : String → ColumnValues}
  {types : Types} {only : Option (List String)} {taken : List Delta} {whole : Bool}

/-- The rows of a table under some columns, by OID. -/
def Mirror.rendered (L : Columnar τ κ) (columns : Dict String τ) (tbl : Dict Nat Row) :
    List (Nat × List (String × κ)) :=
  (sortByKey tbl.entries).map fun e => (e.1, L.cells columns (some e.2))

/-- A crash takes no file that compaction wrote and the manifest names. Compaction
    writes its file without a sync, unlike a flush, so a crash may leave the manifest
    ahead of it. -/
def MirrorDisk.Spared (lost : SegmentName → Bool) (kept : Bool) (disk : MirrorDisk τ κ) : Prop :=
  ∀ name ∈ disk.folded, name ∈ segmentNames ((disk.manifest.crash kept).current.getD {}).tables →
    disk.data.loses lost name = false

instance decidableDiskSpared (lost : SegmentName → Bool) (kept : Bool) (disk : MirrorDisk τ κ) :
    Decidable (disk.Spared lost kept) :=
  inferInstanceAs (Decidable (∀ name ∈ disk.folded, name ∈ segmentNames _ → _ = _))

/-- The events of the theorem: values the columns were checked for, and crashes that
    take no compacted file. -/
def MirrorEvent.Spared (L : Columnar τ κ) (V : String → ColumnValues) (types : Types)
    (r : MirrorRun τ κ) : MirrorEvent τ κ → Prop
  | .op o => o.Valued V types r.world.mirror
  | .reopen _ => True
  | .crash during lost _ kept _ =>
    (∀ o left, during = some (o, left) → o.Valued V types r.world.mirror) ∧
      (r.cut L types during).world.disk.Spared lost kept

section Open

variable {disk : MirrorDisk τ κ} {w : MirrorWorld τ κ} {slot : Option (MirrorManifest τ)}

omit [DecidableEq τ] in
/-- The segments of a class are among those the bookkeeping names. -/
theorem mem_segmentNames {tables : Dict String (TableState τ)} {typename : String} {n : Nat}
    (h : n ∈ (tables.getD typename {}).segments) : (typename, n) ∈ segmentNames tables := by
  unfold Dict.getD at h
  cases hget : tables.get? typename with
  | none =>
      rw [hget] at h
      exact absurd h List.not_mem_nil
  | some st =>
      rw [hget, Option.getD_some] at h
      exact List.mem_flatMap.mpr ⟨(typename, st), (Dict.get?_eq_some_iff _ _ _).mp hget,
        List.mem_map_of_mem h⟩

omit [DecidableEq τ] in
/-- A file that can be read still can if the crash does not take it. -/
theorem Filed.crash {name : SegmentName} {t : SegmentTable τ κ} (h : Filed disk name t)
    {lost : SegmentName → Bool} (back : SegmentName → Option (SegmentTable τ κ)) {kept : Bool}
    (hspared : name ∈ disk.folded → disk.data.loses lost name = false) :
    Filed (disk.crash lost back kept) name t := by
  rcases h with ⟨f, hf, hcontent, hsynced⟩
  have hkept : disk.data.loses lost name = false := by
    rcases hsynced with hsynced | hfolded
    · unfold Cabinet.loses
      rw [hf, Option.any_some, hsynced]
      rfl
    · exact hspared hfolded
  have hhas : disk.data.Has name t := ⟨f, hf, hcontent⟩
  rcases hhas.crash back hkept with ⟨f', hf', hcontent'⟩
  refine ⟨f', hf', hcontent', Or.inl ?_⟩
  unfold Cabinet.crash at hf'
  rw [hf] at hf'
  cases hf'
  rfl

omit [DecidableEq τ] in
/-- A class whose files can be read still. -/
theorem Stands.files {disk' : MirrorDisk τ κ} {typename : String} {st : TableState τ}
    {recent : Dict Nat (Option Row)} {tbl : Dict Nat Row}
    (h : Stands L V disk typename st recent tbl)
    (hfiles : ∀ n ∈ st.segments, ∀ t, Filed disk (typename, n) t → Filed disk' (typename, n) t) :
    Stands L V disk' typename st recent tbl := by
  rcases h with ⟨parts, hclass, hlive⟩
  refine ⟨parts, { hclass with
    stored := ((List.forall₂_and_left _ _).mpr ⟨hfiles, hclass.stored⟩).imp ?_ }, hlive⟩
  rintro n rows ⟨hfile, t, hfiled, hrows⟩
  exact ⟨t, hfile t hfiled, hrows⟩

omit [DecidableEq τ] in
variable (disk) in
/-- A mirror opens on a manifest that is fit for recovery, and holds the deltas up
    to it. -/
theorem open_resting (params : MirrorParams) (htids : Numbered 0 taken)
    (h : Recoverable L V types only taken w slot)
    (hfiles : ∀ name ∈ segmentNames (slot.getD {}).tables, ∀ t,
      Filed w.disk name t → Filed disk name t)
    (hmanifest : disk.manifest = ⟨slot, slot⟩) :
    ∃ w', openMirror params only disk = .ok w' ∧
      Resting L V types only (taken.filter fun d => d.tid ≤ disk.committed.watermark) true w' ∧
      w'.mirror.watermark = disk.committed.watermark ∧ w'.disk.committed = disk.committed ∧
      ∀ typename, w'.mirror.pendingOf typename = Dict.empty := by
  rcases h.committed with ⟨kept, rest, htaken, hkept⟩
  have hcommitted : disk.committed = slot.getD {} := by
    unfold MirrorDisk.committed
    rw [hmanifest]
  have hfilter : taken.filter (fun d => d.tid ≤ disk.committed.watermark) = kept := by
    rw [htaken] at htids ⊢
    have hprefix := htids.filter
    rw [Nat.zero_add] at hprefix
    rw [hcommitted, hkept.watermark]
    exact hprefix
  -- The manifest passes the checks of the loader, or there is none and the mirror is empty.
  have hload : loadMirror disk.manifest.current params only = .ok
      { params := params, only := only, types := (slot.getD {}).types
        tables := (slot.getD {}).tables, watermark := (slot.getD {}).watermark } := by
    have hformat := hkept.format
    have hversion := hkept.version
    have hmirrored := h.mirrored
    rw [hmanifest]
    unfold loadMirror
    cases slot with
    | none => rfl
    | some m =>
        rw [Option.getD_some] at hformat hversion
        dsimp only [Option.getD_some]
        rw [if_neg (not_not.mpr hformat), if_neg (by omega),
          if_neg (not_not.mpr (hmirrored m rfl))]
  unfold openMirror
  rw [hload, hfilter]
  refine ⟨_, rfl, ⟨?_, ?_, rfl⟩, ?_, rfl, fun _ => rfl⟩
  · -- A named file is kept by the sweep.
    have hstands : ∀ typename, Stands L V
        { disk with data := disk.data.keepOnly (segmentNames (slot.getD {}).tables) } typename
        ((slot.getD {}).tables.getD typename {}) Dict.empty
        ((Folded.ofDeltas types only kept).tables typename) := by
      intro typename
      refine (hkept.rows typename).files fun n hn t hfiled => ?_
      have hname := mem_segmentNames hn
      rcases hfiles _ hname t hfiled with ⟨f, hf, hcontent, hsynced⟩
      refine ⟨f, ?_, hcontent, hsynced⟩
      change Cabinet.keepOnly _ disk.data (typename, n) = _
      rw [Cabinet.keepOnly, if_pos hname, hf]
    have hslot : ∀ (mirror : Mirror τ) (slot' : Option (MirrorManifest τ)),
        mirror.tables = (slot.getD {}).tables → slot' = slot →
        Recoverable L V types only kept ⟨mirror,
          { disk with data := disk.data.keepOnly (segmentNames (slot.getD {}).tables) }, none⟩
          slot' := by
      rintro mirror slot' htables rfl
      refine ⟨h.mirrored, ⟨kept, [], (List.append_nil kept).symm,
        { hkept with rows := hstands }⟩, fun typename => ?_⟩
      unfold Mirror.state
      rw [htables]
    refine ⟨?_, rfl, hkept.lineage, hkept.watermark, hstands, (fun _ _ _ hrow => by cases hrow),
      hslot _ _ rfl (by rw [hmanifest]), hslot _ _ rfl (by rw [hmanifest])⟩
    rw [htaken] at htids
    exact htids.left
  · change disk.manifest.stable = disk.manifest.current
    rw [hmanifest]
  · rw [hcommitted]

end Open

section Tables

variable {w : MirrorWorld τ κ}

/-- The table of a class is that of the deltas, unless its pending rows cannot be put
    into columns. -/
theorem Resting.table (h : Resting L V types only taken whole w)
    (hreread : ∀ typename name, Rereads L (V typename name)) {typename : String}
    {columns : Dict String τ}
    (hwiden : L.widenRows (w.mirror.pendingOf typename).values (w.mirror.state typename).columns =
      .ok () columns) :
    Mirror.table L typename w = .ok (columns,
      Mirror.rendered L columns ((Folded.ofDeltas types only taken).tables typename)) := by
  rcases h.ok.rows typename with ⟨parts, hclass, hlive⟩
  have hvalues : ∀ row, some row ∈ (w.mirror.pendingOf typename).values →
      ∀ name v, row.get? name = some v → V typename name v := by
    intro row hrow
    rcases List.mem_map.mp hrow with ⟨⟨oid, _⟩, hmem, rfl⟩
    exact h.ok.values typename oid row ((Dict.get?_eq_some_iff _ _ _).mpr hmem)
  have hmoved := widenRows_leads (L := L) (w.mirror.state typename).columns _ hvalues
    (w.mirror.state typename).columns ⟨.refl _, hclass.reached⟩
  rw [hwiden] at hmoved
  have hread := (hclass.widen hmoved.1).read (hreread typename)
  dsimp only at hread
  unfold Mirror.table
  dsimp only
  rw [hwiden]
  dsimp only
  rw [hread]
  dsimp only
  -- Without pending rows there is no part for them, which is as good as an empty one.
  have hfold : foldLive ((parts.map fun rows => (L.pendingTable columns rows).rows) ++
      if (w.mirror.pendingOf typename).entries.isEmpty then []
      else [(L.pendingTable columns (w.mirror.pendingOf typename)).rows]) =
      Mirror.rendered L columns ((Folded.ofDeltas types only taken).tables typename) := by
    unfold Mirror.rendered
    by_cases hempty : (w.mirror.pendingOf typename).entries.isEmpty = true
    · rw [if_pos hempty, List.append_nil, foldLive_cells, sorted_liveRows fun oid => ?_]
      rw [← hlive, Dict.entries_injective (d := w.mirror.pendingOf typename) (e := Dict.empty)
        (List.isEmpty_iff.mp hempty), live_empty]
    · rw [if_neg hempty]
      have hparts : (parts.map fun rows => (L.pendingTable columns rows).rows) ++
          [(L.pendingTable columns (w.mirror.pendingOf typename)).rows] =
          (parts ++ [w.mirror.pendingOf typename]).map fun rows =>
            (L.pendingTable columns rows).rows := by
        rw [List.map_append]
        rfl
      rw [hparts, foldLive_cells, sorted_liveRows hlive]
  rw [hfold]

end Tables

section Runs

/-- The mirror when a process ends. -/
def MirrorRun.ending (L : Columnar τ κ) (types : Types) (r : MirrorRun τ κ) :
    MirrorEvent τ κ → MirrorRun τ κ
  | .op _ => r
  | .reopen _ => r
  | .crash during _ _ _ _ => r.cut L types during

/-- The events after which a new process goes on. -/
def MirrorEvent.opens : MirrorEvent τ κ → Bool
  | .op _ => false
  | .reopen _ => true
  | .crash _ _ _ _ _ => true

/-- A mirror in use, with the deltas it was given. It was never refused anything,
    and it is at rest between two operations. -/
structure MirrorRun.Good (L : Columnar τ κ) (V : String → ColumnValues) (types : Types)
    (only : Option (List String)) (r : MirrorRun τ κ) : Prop where
  served : r.refused = false
  resting : Resting L V types only r.taken true r.world

/-- What an operation leaves, cut off or not. -/
theorem MirrorRun.Good.act {r : MirrorRun τ κ} (h : r.Good L V types only)
    (hreread : ∀ typename name, Rereads L (V typename name)) (o : MirrorOp) (left : Option Nat)
    (hvalued : o.Valued V types r.world.mirror) :
    Ended L V types only (r.act L types o left).taken left.isNone
      (finalState (o.run L types { r.world with left := left })) := by
  have hstart : Resting L V types only r.taken left.isNone { r.world with left := left } :=
    ⟨h.resting.ok.onManifest h.resting.ok.current h.resting.ok.stable, h.resting.settled, rfl⟩
  exact (op_leads hreread o (s := { r.world with left := left }) hvalued).final
    (fun _ _ hended => hended) (fun _ hended => hended) ⟨rfl, hstart⟩

/-- One event, with what it leaves if a new process goes on. -/
theorem MirrorRun.Good.step {r : MirrorRun τ κ} (h : r.Good L V types only)
    (hreread : ∀ typename name, Rereads L (V typename name)) (e : MirrorEvent τ κ)
    (hspared : e.Spared L V types r) :
    (r.step L types e).Good L V types only ∧ (e.opens = true →
      (r.step L types e).taken = (r.ending L types e).taken.filter
        (fun d => d.tid ≤ (r.step L types e).world.disk.committed.watermark) ∧
      (r.step L types e).world.mirror.watermark =
        (r.step L types e).world.disk.committed.watermark ∧
      ∀ typename, (r.step L types e).world.mirror.pendingOf typename = Dict.empty) := by
  have honly : r.world.mirror.only = only := h.resting.ok.mirrored
  cases e with
  | op o =>
      -- Uninterrupted, an operation ends at rest.
      have hended := h.act hreread o none hspared
      refine ⟨⟨h.served, ?_, hended.settled rfl, rfl⟩, fun hopens => nomatch hopens⟩
      exact hended.ok.onManifest hended.ok.current hended.ok.stable
  | reopen params =>
      have hmanifest : r.world.disk.manifest =
          ⟨r.world.disk.manifest.current, r.world.disk.manifest.current⟩ :=
        congrArg (Slot.mk r.world.disk.manifest.current) h.resting.settled
      rcases open_resting r.world.disk params h.resting.ok.tids h.resting.ok.current
        (fun _ _ _ hfiled => hfiled) hmanifest with ⟨w, hopen, hresting, hwatermark, hcommitted,
          hpending⟩
      have hstep : r.step L types (.reopen params) = { r with
          world := w, taken := r.taken.filter fun d => d.tid ≤ r.world.disk.committed.watermark } := by
        unfold MirrorRun.step MirrorRun.opened
        dsimp only
        rw [honly, hopen]
      rw [hstep]
      refine ⟨⟨h.served, hresting⟩, fun _ => ⟨?_, ?_, hpending⟩⟩
      · rw [hcommitted]
        rfl
      · rw [hcommitted, hwatermark]
  | crash during lost back kept params =>
      -- What the cut leaves is sound, and either manifest of the slot may survive the crash.
      have hcut : MirrorOk L V types only (r.cut L types during).taken
          (r.cut L types during).world ∧ (r.cut L types during).refused = false := by
        cases during with
        | none => exact ⟨h.resting.ok, h.served⟩
        | some call =>
            have hended := h.act hreread call.1 (some call.2) (hspared.1 call.1 call.2 rfl)
            exact ⟨hended.ok.onManifest hended.ok.current hended.ok.stable, h.served⟩
      have hdisk := hspared.2
      generalize hc : r.cut L types during = cut at hcut hdisk
      have hslot : Recoverable L V types only cut.taken cut.world
          (cut.world.disk.manifest.crash kept).current := by
        rcases cut.world.disk.manifest.crash_current kept with hleft | hleft
        · rw [hleft]
          exact hcut.1.current
        · rw [hleft]
          exact hcut.1.stable
      rcases open_resting (cut.world.disk.crash lost back kept) params hcut.1.tids hslot
        (fun name hname _ hfiled => hfiled.crash back fun hfolded => hdisk name hfolded hname) rfl
        with ⟨w, hopen, hresting, hwatermark, hcommitted,
          hpending⟩
      have hstep : r.step L types (.crash during lost back kept params) = { cut with
          world := w, taken := cut.taken.filter fun d =>
            d.tid ≤ (cut.world.disk.crash lost back kept).committed.watermark } := by
        unfold MirrorRun.step MirrorRun.opened
        dsimp only
        rw [hc, hcut.1.mirrored, hopen]
      rw [hstep]
      refine ⟨⟨hcut.2, hresting⟩, fun _ => ⟨?_, ?_, hpending⟩⟩
      · change _ = List.filter _ (r.cut L types during).taken
        rw [hc, hcommitted]
      · rw [hcommitted, hwatermark]

omit [DecidableEq τ] in
theorem start_good (params : MirrorParams) :
    (MirrorRun.start params only : MirrorRun τ κ).Good L V types only := by
  have hstands : ∀ typename, Stands L V {} typename (Dict.empty.getD typename {}) Dict.empty
      ((Folded.ofDeltas types only []).tables typename) := fun typename =>
    ⟨[], ⟨.nil, (fun _ _ hcolumn => nomatch hcolumn), fun _ hn => absurd hn List.not_mem_nil⟩,
      fun _ => rfl⟩
  have hslot : Recoverable L V types only [] (MirrorRun.start params only).world none :=
    ⟨(fun _ hm => nomatch hm), ⟨[], [], rfl, rfl, rfl, rfl, rfl, hstands⟩, fun _ => Nat.le_refl _⟩
  exact ⟨rfl, ⟨rfl, rfl, rfl, rfl, hstands, (fun _ _ _ hrow => nomatch hrow), hslot, hslot⟩,
    rfl, rfl⟩

/-- A mirror that is opened again, after a crash or not, has the table of every class
    as the deltas up to its manifest make it, if no crash took a file that compaction
    wrote, and stored values can be stored again. -/
theorem mirror_survives_crash (L : Columnar τ κ) (V : String → ColumnValues) (types : Types)
    (hreread : ∀ typename name, Rereads L (V typename name)) (params : MirrorParams)
    (only : Option (List String)) (events : List (MirrorEvent τ κ)) (e : MirrorEvent τ κ)
    (hopens : e.opens = true)
    (hspared : EachStep (MirrorRun.step L types) (fun r e => e.Spared L V types r)
      (MirrorRun.start params only) (events ++ [e])) :
    let before := ((MirrorRun.start params only).run L types events).ending L types e
    let r := (MirrorRun.start params only).run L types (events ++ [e])
    r.refused = false ∧
    r.world.mirror.watermark = r.world.disk.committed.watermark ∧
    r.taken = before.taken.filter (fun d => d.tid ≤ r.world.disk.committed.watermark) ∧
    r.taken.map Delta.tid = List.range' 1 r.world.disk.committed.watermark ∧
    ∀ typename, ∃ columns, Mirror.table L typename r.world =
      .ok (columns,
        Mirror.rendered L columns ((Folded.ofDeltas types only r.taken).tables typename)) := by
  have hrun := (eachStep_append events [e] _).mp hspared
  -- The run before the last event keeps its invariant.
  have hgood : ((MirrorRun.start params only).run L types events).Good L V types only :=
    eachStep_invariant (I := fun r => r.Good L V types only)
      (fun r e hr he => (hr.step hreread e he).1) events _ (start_good params) hrun.1
  have hlast := hgood.step hreread e hrun.2.1
  have hsplit : (MirrorRun.start params only).run L types (events ++ [e]) =
      ((MirrorRun.start params only).run L types events).step L types e := by
    unfold MirrorRun.run
    rw [List.foldl_append]
    rfl
  dsimp only
  rw [hsplit]
  -- The last event opens the mirror, so it shows what the manifest says.
  rcases hlast with ⟨hafter, hopened⟩
  rcases hopened hopens with ⟨htaken, hwatermark, hpending⟩
  generalize ((MirrorRun.start params only).run L types events).step L types e = r at *
  refine ⟨hafter.served, hwatermark, htaken, ?_, fun typename =>
    ⟨(r.world.mirror.state typename).columns, hafter.resting.table hreread ?_⟩⟩
  · rw [← hwatermark, hafter.resting.ok.watermark]
    exact hafter.resting.ok.tids
  · -- Nothing is pending, so the columns stay as they are.
    rw [hpending]
    rfl

section Notes

/-- Tags enough for integers and texts. -/
inductive NoteTag
  | null
  | int
  | str
  | fallback
  deriving DecidableEq

/-- Columns of integers and texts; anything else is stored as bytes that stand for
    the value. -/
def noteColumns : Columnar NoteTag (Option (Val Token)) where
  null := .null
  tagOf
    | .none => .null
    | .scalar (.num .int _) => .int
    | .scalar (.str _) => .str
    | _ => .fallback
  unify a b := if a = b ∨ b = .null then a else if a = .null then b else .fallback
  nullCell := none
  storable
    | _, .none => none
    | _, v => some v
  semantic _ cell := cell.getD .none
  storable_none _ := rfl
  semantic_null _ := rfl

/-- A note with one number, in a class that nothing declares. -/
def noteDelta (n : Nat) : Delta where
  tid := n
  actor := 1
  ops := [{ kind := .upsert, oid := 10 + n, cid := 1, payload := some [.int n], prior := none }]
  types := if n = 1 then [(1, "Note", ["n"])] else []
  rootOid := none

theorem noteColumns_rereads (P : Val Token → Prop) : Rereads noteColumns P := by
  intro v old new _ _ _
  cases v <;> rfl

theorem valued_any (types : Types) (m : Mirror NoteTag) (o : MirrorOp) :
    o.Valued (fun _ _ _ => True) types m := by
  cases o with
  | apply d => exact fun _ _ _ _ _ _ _ _ _ => trivial
  | flush => trivial
  | compact => trivial

/-- Two notes, and a crash in the middle of a compaction that takes what it can. -/
theorem notes_spared : EachStep (MirrorRun.step noteColumns fun _ => none)
    (fun r e => e.Spared noteColumns (fun _ _ _ => True) (fun _ => none) r)
    (MirrorRun.start {} none) ([.op (.apply (noteDelta 1)), .op (.apply (noteDelta 2))] ++
      [.crash (some (.compact, 6)) (fun _ => true) (fun _ => none) true {}]) := by
  refine ⟨?_, ?_, ⟨fun _ _ _ => valued_any _ _ _, ?_⟩, trivial⟩
  · exact valued_any _ _ (.apply (noteDelta 1))
  · exact valued_any _ _ (.apply (noteDelta 2))
  · decide +kernel

instance : DecidableEq (Nat × List (String × Option (Val Token))) :=
  fun a b => instDecidableEqProd a b

end Notes

/-- A compaction is cut off before its manifest, and nothing that was not synced is
    left. -/
theorem mirror_survives_midway :
    let r := (MirrorRun.start {} none).run noteColumns (fun _ => none)
      ([.op (.apply (noteDelta 1)), .op (.apply (noteDelta 2))] ++
        [.crash (some (.compact, 6)) (fun _ => true) (fun _ => none) true {}])
    r.refused = false ∧ r.taken = [noteDelta 1, noteDelta 2] ∧
    ∃ columns, Mirror.table noteColumns "Note" r.world = .ok (columns,
      Mirror.rendered noteColumns columns
        ((Folded.ofDeltas (fun _ => none) none r.taken).tables "Note")) := by
  have h := mirror_survives_crash noteColumns (fun _ _ _ => True) (fun _ => none)
    (fun _ _ => noteColumns_rereads _) {} none
    [.op (.apply (noteDelta 1)), .op (.apply (noteDelta 2))]
    (.crash (some (.compact, 6)) (fun _ => true) (fun _ => none) true {}) rfl notes_spared
  dsimp only at h ⊢
  rcases h with ⟨hserved, -, -, -, htable⟩
  refine ⟨hserved, ?_, htable "Note"⟩
  decide +kernel

/-- A crash after a compaction has returned takes the file it wrote, and the rows of
    the class are nowhere else. -/
theorem mirror_loses_compacted :
    let r := (MirrorRun.start {} none).run noteColumns (fun _ => none)
      [.op (.apply (noteDelta 1)), .op (.apply (noteDelta 2)), .op .compact,
        .crash none (fun _ => true) (fun _ => none) true {}]
    r.taken = [noteDelta 1, noteDelta 2] ∧
    Mirror.table noteColumns "Note" r.world = .error (.unreadable "Note" 3) := by
  refine ⟨?_, ?_⟩
  · decide +kernel
  · decide +kernel

end Runs

end DataCrystal
