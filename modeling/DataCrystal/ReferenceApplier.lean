import DataCrystal.Lib.Item
import DataCrystal.Delta

/-!
# The Reference Applier

The consumer that copies of the engine are checked against. It is handed a decoded
map that nobody has looked at, so every shape is checked here: the marker, the
version, the keys, the transaction, then row by row and operation by operation
whatever these are.

The checks stand inside the loops. A delta that is refused at its third operation
has its shapes and its first two operations taken in by then, and nothing takes
them back. `apply_atomic_iff` says when that does no harm: what stands in front of
the first entry that does not pass has to put back what was held.

`Applier` is the same consumer on deltas whose shape is known.

## Main definitions

* `ReferenceApplier.apply`: One delta, of any shape.
* `Holding`: The records and the shapes of a consumer, as maps.
* `Holding.Passes`: An entry that is applied.
* `ReferenceApplier.Atomic`: A delta that leaves no trace if it is refused.

## Theorems

* `apply_returns_iff`: When a delta is applied.
* `apply_atomic_iff`: When a refused delta leaves no trace.
* `apply_items`: What it does to the map of a delta, `Applier` does to the delta.
-/

namespace DataCrystal

/-- The exceptions of the applier. A `TypeError` or `ValueError` is `malformed`. -/
inductive ApplyErr
  | foreignMarker
  | newerVersion (version : ℤ)
  | olderVersion
  | missingKey (key : String)
  | gap (watermark tid : ℤ)
  | opMissingKey (key : String)
  | unseenCid
  | priorMismatch
  | noPayload
  | absentDelete
  | unknownOp
  | malformed
  deriving DecidableEq

def requiredKeys : List String := ["f", "v", "tid", "actor", "at", "ops", "types", "root"]

def requiredOpKeys : List String := ["op", "oid", "cid", "payload", "prior"]

/-- A value that a use did not allow. -/
def orMalformed {α : Type} : Option α → Except ApplyErr α
  | some a => .ok a
  | none => .error .malformed

theorem orMalformed_ok {α : Type} {x : Option α} {a : α} (h : orMalformed x = .ok a) :
    x = some a := by
  cases x with
  | none => cases h
  | some b =>
      cases h
      rfl

/-- Refuse every version but the current one. -/
def checkVersion : Option Item → Except ApplyErr Unit
  | some (.int version) =>
    if version = contractVersion then .ok ()
    else if contractVersion < version then .error (.newerVersion version)
    else .error .olderVersion
  | _ => .error .olderVersion

/-- Refuse a map with a foreign marker or another version. -/
def checkMapHeader (delta : List (Item × Item)) : Except ApplyErr Unit :=
  if (lookup "f" delta).any (Item.is formatMarker) then checkVersion (lookup "v" delta)
  else .error .foreignMarker

/-- Refuse a map that lacks a key. -/
def checkKeys (delta : List (Item × Item)) : Except ApplyErr Unit :=
  match requiredKeys.find? fun key => (lookup key delta).isNone with
  | some key => .error (.missingKey key)
  | none => .ok ()

/-- The value under a key that is there. -/
def field (key : String) (delta : List (Item × Item)) : Item := (lookup key delta).getD .nil

/-- A type row: the id of a shape, its class and its fields. -/
abbrev ItemRow := Item.Key × Item × List Item

/-- Unpack a type row. -/
def readRow (row : Item) : Except ApplyErr ItemRow := do
  match ← orMalformed row.iter with
  | [cid, typename, fields] =>
    let fields ← orMalformed fields.iter
    let cid ← orMalformed cid.key
    .ok (cid, typename, fields)
  | _ => .error .malformed

/-- The entries of an operation. -/
structure ItemOp where
  kind : Item
  oid : Item
  cid : Item
  payload : Item
  prior : Item

/-- Whether an operation has a key. -/
def requireOpKey (op : Item) (key : String) : Except ApplyErr Unit := do
  if ← orMalformed (op.holds key) then .ok () else .error (.opMissingKey key)

/-- Look for every key of an operation, and read them. -/
def readOp (op : Item) : Except ApplyErr ItemOp := do
  requiredOpKeys.forM (requireOpKey op)
  let kind ← orMalformed (op.get? "op")
  let oid ← orMalformed (op.get? "oid")
  let cid ← orMalformed (op.get? "cid")
  let payload ← orMalformed (op.get? "payload")
  let prior ← orMalformed (op.get? "prior")
  .ok ⟨kind, oid, cid, payload, prior⟩

/-- The consumer that replays the stream. -/
structure ReferenceApplier where
  objects : Dict Item.Key Bytes := Dict.empty
  types : Dict Item.Key (Item × List Item) := Dict.empty
  rootOid : Item := .nil
  watermark : ℤ := 0

namespace ReferenceApplier

/-- Take a new shape in. -/
def applyRow (row : Item) : EStateM ApplyErr ReferenceApplier Unit := do
  let row ← ofExcept (readRow row)
  modify fun a => { a with types := a.types.set row.1 row.2 }

/-- The records after an operation. -/
def opResult (a : ReferenceApplier) (op : ItemOp) : Except ApplyErr (Dict Item.Key Bytes) := do
  let cid ← orMalformed op.cid.key
  -- The class is asked for before the record.
  if !a.types.contains cid then .error .unseenCid
  else
    let oid ← orMalformed op.oid.key
    let current := a.objects.get? oid
    -- What it replaces is what is here, or nothing of it is done.
    if !op.prior.same current then .error .priorMismatch
    else if op.kind.is "upsert" then
      match op.payload.bytes? with
      | some payload => .ok (a.objects.set oid payload)
      | none => .error .noPayload
    else if op.kind.is "delete" then
      -- The record is there, as the prior says, or the delete is of nothing.
      if current.isNone then .error .absentDelete else .ok (a.objects.erase oid)
    else .error .unknownOp

/-- Apply what a delta says about one record. -/
def applyOp (op : Item) : EStateM ApplyErr ReferenceApplier Unit := do
  let op ← ofExcept (readOp op)
  let a ← get
  let objects ← ofExcept (a.opResult op)
  set { a with objects := objects }

/-- Apply one delta; whether it was new. -/
def apply (delta : List (Item × Item)) : EStateM ApplyErr ReferenceApplier Bool := do
  -- The header first, as a foreign map need not have the keys.
  ofExcept (checkMapHeader delta)
  ofExcept (checkKeys delta)
  let tid ← ofExcept (orMalformed (field "tid" delta).number)
  let a ← get
  -- A map a second time is no error.
  if tid ≤ a.watermark then pure false
  else if tid ≠ a.watermark + 1 then throw (.gap a.watermark tid)
  else
    -- The types first: the operations of this map may be of them.
    let rows ← ofExcept (orMalformed (field "types" delta).iter)
    rows.forM applyRow
    let ops ← ofExcept (orMalformed (field "ops" delta).iter)
    ops.forM applyOp
    modify fun a => { a with rootOid := field "root" delta, watermark := tid }
    pure true

/-- The transaction of a map whose turn it is, if it was not applied before. -/
def due (watermark : ℤ) (delta : List (Item × Item)) : Except ApplyErr (Option ℤ) := do
  checkMapHeader delta
  checkKeys delta
  let tid ← orMalformed (field "tid" delta).number
  if tid ≤ watermark then .ok none
  else if tid ≠ watermark + 1 then .error (.gap watermark tid)
  else .ok (some tid)

end ReferenceApplier

/-- What a delta consists of. A part that cannot be iterated is a broken entry. -/
inductive Entry
  | row (x : Item)
  | op (x : Item)
  | broken

/-- The entries of one part of a delta. -/
def entriesOf (kind : Item → Entry) (part : Item) : List Entry :=
  match part.iter with
  | some xs => xs.map kind
  | none => [.broken]

/-- The rows and the operations of a delta. -/
def entries (delta : List (Item × Item)) : List Entry :=
  entriesOf .row (field "types" delta) ++ entriesOf .op (field "ops" delta)

/-- The shape a row gives, under its id. -/
def Entry.shape : Entry → Option ItemRow
  | .row x => (readRow x).toOption
  | _ => none

/-- What an operation leaves of a record. -/
def Entry.record : Entry → Option (Item.Key × Option Bytes)
  | .op x => do
    let op ← (readOp x).toOption
    let oid ← op.oid.key
    some (oid, if op.kind.is "upsert" then op.payload.bytes? else none)
  | _ => none

theorem shape_row {x : Item} {row : ItemRow} (h : readRow x = .ok row) :
    (Entry.row x).shape = some row := by
  simp only [Entry.shape, h, Except.toOption]

theorem record_op {x : Item} {op : ItemOp} {oid : Item.Key} (h : readOp x = .ok op)
    (hoid : op.oid.key = some oid) : (Entry.op x).record =
      some (oid, if op.kind.is "upsert" then op.payload.bytes? else none) := by
  unfold Entry.record
  simp only [h, Except.toOption, Option.bind_eq_bind, Option.bind_some, hoid]

section Overwriting

variable {κ γ : Type} [DecidableEq κ]

/-- A map with one value changed, if something is said. -/
def overwrite (f : κ → γ) : Option (κ × γ) → κ → γ
  | some (j, v) => fun k => if k = j then v else f k
  | none => f

/-- What is said last about a key. -/
def LastWord (words : List (Option (κ × γ))) (k : κ) (v : γ) : Prop :=
  ∃ front back, words = front ++ some (k, v) :: back ∧ ∀ w, some (k, w) ∉ back

theorem overwrite_other {f : κ → γ} {word : Option (κ × γ)} {k : κ} (h : ∀ w, word ≠ some (k, w)) :
    overwrite f word k = f k := by
  unfold overwrite
  cases word with
  | none => rfl
  | some e =>
      have hk : k ≠ e.1 := fun hk => h e.2 (by rw [hk])
      exact if_neg hk

theorem foldl_overwrite_other (words : List (Option (κ × γ))) {k : κ} : ∀ f : κ → γ,
    (∀ w, some (k, w) ∉ words) → words.foldl overwrite f k = f k := by
  induction words with
  | nil => exact fun _ _ => rfl
  | cons word words ih =>
      intro f h
      rw [List.foldl_cons, ih _ fun w hw => h w (List.mem_cons_of_mem _ hw)]
      exact overwrite_other fun w hw => h w (by rw [hw]; exact List.mem_cons_self)

theorem foldl_overwrite_last {words : List (Option (κ × γ))} {k : κ} {v : γ}
    (h : LastWord words k v) (f : κ → γ) : words.foldl overwrite f k = v := by
  rcases h with ⟨front, back, rfl, hback⟩
  rw [List.foldl_append, List.foldl_cons, foldl_overwrite_other back _ hback]
  exact if_pos rfl

omit [DecidableEq κ] in
/-- Either nothing is said about a key, or something is said last. -/
theorem lastWord_or (words : List (Option (κ × γ))) (k : κ) :
    (∃ v, LastWord words k v) ∨ ∀ w, some (k, w) ∉ words := by
  induction words with
  | nil => exact Or.inr fun _ => List.not_mem_nil
  | cons word words ih =>
      rcases ih with ⟨v, front, back, rfl, hback⟩ | hnone
      · exact Or.inl ⟨v, word :: front, back, rfl, hback⟩
      · by_cases hword : ∃ v, word = some (k, v)
        · rcases hword with ⟨v, rfl⟩
          exact Or.inl ⟨v, [], words, rfl, hnone⟩
        · refine Or.inr fun w hw => ?_
          rcases List.mem_cons.mp hw with hw | hw
          · exact hword ⟨w, hw.symm⟩
          · exact hnone w hw

/-- A map is left as it was if what is said last about each key is what it held. -/
theorem foldl_overwrite_eq_iff (words : List (Option (κ × γ))) (f : κ → γ) :
    words.foldl overwrite f = f ↔ ∀ k v, LastWord words k v → v = f k := by
  constructor
  · intro h k v hlast
    rw [← foldl_overwrite_last hlast f, h]
  · intro h
    ext k
    rcases lastWord_or words k with ⟨v, hlast⟩ | hnone
    · rw [foldl_overwrite_last hlast, h k v hlast]
    · exact foldl_overwrite_other words f hnone

end Overwriting

/-- The records and the shapes of a consumer. -/
@[ext]
structure Holding where
  objects : Item.Key → Option Bytes
  types : Item.Key → Option (Item × List Item)

namespace Holding

/-- What is held after an entry that is applied. -/
def takes (h : Holding) (e : Entry) : Holding where
  objects := overwrite h.objects e.record
  types := overwrite h.types (e.shape.map fun row => (row.1, some row.2))

/-- What is held after some entries. -/
def after (h : Holding) (es : List Entry) : Holding := es.foldl takes h

/-- An operation that is applied: of a known shape, with what is held as its prior.
    It writes bytes, or it deletes a record that is there. -/
structure Fits (h : Holding) (op : ItemOp) (cid oid : Item.Key) : Prop where
  shape : op.cid.key = some cid
  seen : (h.types cid).isSome = true
  record : op.oid.key = some oid
  prior : op.prior.same (h.objects oid) = true
  kind : (op.kind.is "upsert" = true ∧ op.payload.bytes?.isSome = true) ∨
    (op.kind.is "delete" = true ∧ (h.objects oid).isSome = true)

/-- An entry that is applied. -/
def Passes (h : Holding) : Entry → Prop
  | .row x => ∃ row, readRow x = .ok row
  | .op x => ∃ op cid oid, readOp x = .ok op ∧ h.Fits op cid oid
  | .broken => False

/-- Entries that put back what was held: the last word on each record and on each
    shape is what was held of it before. -/
structure Restores (h : Holding) (es : List Entry) : Prop where
  objects : ∀ k payload, LastWord (es.map Entry.record) k payload → payload = h.objects k
  types : ∀ k shape, LastWord (es.map fun e => e.shape.map fun row => (row.1, some row.2)) k shape →
    shape = h.types k

theorem after_eq_iff (h : Holding) (es : List Entry) : h.after es = h ↔ h.Restores es := by
  have hparts : h.after es = ⟨(es.map Entry.record).foldl overwrite h.objects,
      (es.map fun e => e.shape.map fun row => (row.1, some row.2)).foldl overwrite h.types⟩ := by
    induction es generalizing h with
    | nil => rfl
    | cons e es ih => exact ih (h.takes e)
  rw [hparts, Holding.ext_iff, foldl_overwrite_eq_iff, foldl_overwrite_eq_iff]
  exact ⟨fun hboth => ⟨hboth.1, hboth.2⟩, fun hr => ⟨hr.objects, hr.types⟩⟩

/-- Entries that are all applied, each after those in front of it, on what these
    have left. -/
def AllPass (h : Holding) : List Entry → Prop
  | [] => True
  | e :: es => h.Passes e ∧ (h.takes e).AllPass es

/-- The entries in front of the first that does not pass. They have been applied
    when the apply raises, and nothing takes them back. -/
def Before (h : Holding) (es pre : List Entry) : Prop :=
  ∃ bad post, es = pre ++ bad :: post ∧ h.AllPass pre ∧ ¬(h.after pre).Passes bad

theorem allPass_or (es : List Entry) : ∀ h : Holding, h.AllPass es ∨ ∃ pre, h.Before es pre := by
  induction es with
  | nil => exact fun h => Or.inl trivial
  | cons e es ih =>
      intro h
      by_cases he : h.Passes e
      · rcases ih (h.takes e) with hall | ⟨pre, bad, post, rfl, hpre, hbad⟩
        · exact Or.inl ⟨he, hall⟩
        · exact Or.inr ⟨e :: pre, bad, post, rfl, ⟨he, hpre⟩, hbad⟩
      · exact Or.inr ⟨[], e, es, rfl, trivial, he⟩

theorem Before.not_allPass {h : Holding} {es pre : List Entry} (hb : h.Before es pre) :
    ¬h.AllPass es := by
  rcases hb with ⟨bad, post, rfl, hpre, hbad⟩
  clear hpre
  induction pre generalizing h with
  | nil => exact fun hall => hbad hall.1
  | cons e pre ih => exact fun hall => ih hbad hall.2

end Holding

namespace ReferenceApplier

def holding (a : ReferenceApplier) : Holding := ⟨a.objects.get?, a.types.get?⟩

/-- Apply one entry. -/
def applyEntry : Entry → EStateM ApplyErr ReferenceApplier Unit
  | .row x => applyRow x
  | .op x => applyOp x
  | .broken => throw .malformed

/-- Two consumers that hold the same records, shapes, root and watermark. An order
    of the entries in their dictionaries is no difference. -/
structure SameState (b a : ReferenceApplier) : Prop where
  holding : b.holding = a.holding
  rootOid : b.rootOid = a.rootOid
  watermark : b.watermark = a.watermark

variable {a b : ReferenceApplier} {delta : List (Item × Item)} {e : Entry} {es : List Entry}

theorem forM_entriesOf (kind : Item → Entry) (part : Item) :
    (entriesOf kind part).forM applyEntry =
      ofExcept (orMalformed part.iter) >>= fun xs => xs.forM fun x => applyEntry (kind x) := by
  unfold entriesOf
  cases part.iter with
  | none => rfl
  | some xs =>
      change (xs.map kind).forM applyEntry = xs.forM fun x => applyEntry (kind x)
      induction xs with
      | nil => rfl
      | cons x xs ih =>
          change (applyEntry (kind x) >>= fun _ => (xs.map kind).forM applyEntry) = _
          rw [ih]
          rfl

/-- The two loops are one over all entries. -/
theorem entries_loop {α : Type} (delta : List (Item × Item))
    (f : Unit → EStateM ApplyErr ReferenceApplier α) :
    ((entries delta).forM applyEntry >>= f) =
      ofExcept (orMalformed (field "types" delta).iter) >>= fun rows =>
        rows.forM applyRow >>= fun _ =>
          ofExcept (orMalformed (field "ops" delta).iter) >>= fun ops =>
            ops.forM applyOp >>= f := by
  have hjoined : (entries delta).forM applyEntry =
      (entriesOf .row (field "types" delta)).forM applyEntry >>= fun _ =>
        (entriesOf .op (field "ops" delta)).forM applyEntry := List.forM_append
  rw [hjoined, forM_entriesOf, forM_entriesOf, bind_assoc, bind_assoc]
  simp only [bind_assoc]
  rfl

/-- A delta is judged as a whole, then applied entry by entry. -/
theorem apply_run (delta : List (Item × Item)) (a : ReferenceApplier) :
    apply delta a = match due a.watermark delta with
      | .error err => .error err a
      | .ok none => .ok false a
      | .ok (some tid) => ((entries delta).forM applyEntry >>= fun _ =>
          modify (fun a => { a with rootOid := field "root" delta, watermark := tid }) >>= fun _ =>
            pure true) a := by
  unfold apply due
  cases checkMapHeader delta with
  | error err => rfl
  | ok u =>
      cases checkKeys delta with
      | error err => rfl
      | ok u =>
          cases orMalformed (field "tid" delta).number with
          | error err => rfl
          | ok tid =>
              rw [bind_run_ok (ofExcept_run_ok rfl a), bind_run_ok (ofExcept_run_ok rfl a),
                bind_run_ok (ofExcept_run_ok rfl a), bind_run_ok (get_run a)]
              rw [← entries_loop]
              change _ = match (if tid ≤ a.watermark then .ok none
                else if tid ≠ a.watermark + 1 then .error (.gap a.watermark tid)
                else .ok (some tid) : Except ApplyErr (Option ℤ)) with
                | .error err => EStateM.Result.error err a
                | .ok none => .ok false a
                | .ok (some tid) => _
              by_cases hold : tid ≤ a.watermark
              · rw [if_pos hold, if_pos hold]
                rfl
              · by_cases hgap : tid ≠ a.watermark + 1
                · rw [if_neg hold, if_neg hold, if_pos hgap, if_pos hgap]
                  rfl
                · rw [if_neg hold, if_neg hold, if_neg hgap, if_neg hgap]

/-- What an operation does if it fits. -/
theorem opResult_fits {op : ItemOp} {cid oid : Item.Key} (h : a.holding.Fits op cid oid) :
    ∃ objects, a.opResult op = .ok objects ∧ ∀ k, objects.get? k =
      if k = oid then (if op.kind.is "upsert" then op.payload.bytes? else none)
      else a.objects.get? k := by
  have hseen : (!a.types.contains cid) = false := by
    rw [Bool.not_eq_false']
    exact h.seen
  have hprior : (!op.prior.same (a.objects.get? oid)) = false := by
    rw [Bool.not_eq_false']
    exact h.prior
  unfold opResult
  rw [h.shape]
  change ∃ objects, (if !a.types.contains cid then _ else _) = Except.ok objects ∧ _
  rw [hseen, if_neg Bool.false_ne_true, h.record]
  change ∃ objects, (if !op.prior.same (a.objects.get? oid) then _ else _) = Except.ok objects ∧ _
  rw [hprior, if_neg Bool.false_ne_true]
  rcases h.kind with ⟨hkind, hpayload⟩ | ⟨hkind, hheld⟩
  · rcases Option.isSome_iff_exists.mp hpayload with ⟨payload, hbytes⟩
    rw [if_pos hkind, hbytes, if_pos hkind]
    refine ⟨_, rfl, fun k => ?_⟩
    by_cases hk : k = oid
    · rw [if_pos hk, hk, Dict.get?_set_self]
    · rw [if_neg hk, Dict.get?_set_ne _ _ hk]
  · have hother : ¬op.kind.is "upsert" = true := by
      rw [Item.is_iff.mp hkind]
      decide
    have hsome : ¬(a.objects.get? oid).isNone = true := by
      rw [Option.isNone_iff_eq_none]
      intro hnone
      have hheld' : (a.objects.get? oid).isSome = true := hheld
      rw [hnone] at hheld'
      cases hheld'
    rw [if_neg hother, if_pos hkind, if_neg hsome, if_neg hother]
    refine ⟨_, rfl, fun k => ?_⟩
    by_cases hk : k = oid
    · rw [if_pos hk, hk, Dict.get?_erase_self]
    · rw [if_neg hk, Dict.get?_erase_ne _ hk]

/-- An operation with a result fits. -/
theorem fits_of_opResult {op : ItemOp} {objects : Dict Item.Key Bytes}
    (h : a.opResult op = .ok objects) : ∃ cid oid, a.holding.Fits op cid oid := by
  unfold opResult at h
  rcases except_bind_ok_iff.mp h with ⟨cid, hcid, h⟩
  by_cases hseen : a.types.contains cid = true
  · rw [hseen, Bool.not_true, if_neg Bool.false_ne_true] at h
    rcases except_bind_ok_iff.mp h with ⟨oid, hoid, h⟩
    dsimp only at h
    by_cases hprior : op.prior.same (a.objects.get? oid) = true
    · rw [hprior, Bool.not_true, if_neg Bool.false_ne_true] at h
      refine ⟨cid, oid, orMalformed_ok hcid, hseen, orMalformed_ok hoid, hprior, ?_⟩
      by_cases hupsert : op.kind.is "upsert" = true
      · rw [if_pos hupsert] at h
        cases hbytes : op.payload.bytes? with
        | some payload => exact Or.inl ⟨hupsert, rfl⟩
        | none =>
            rw [hbytes] at h
            cases h
      · rw [if_neg hupsert] at h
        by_cases hdelete : op.kind.is "delete" = true
        · rw [if_pos hdelete] at h
          cases hheld : a.objects.get? oid with
          | some payload => exact Or.inr ⟨hdelete, Option.isSome_iff_exists.mpr ⟨payload, hheld⟩⟩
          | none =>
              rw [hheld] at h
              cases h
        · rw [if_neg hdelete] at h
          cases h
    · rw [Bool.not_eq_true] at hprior
      rw [hprior, Bool.not_false, if_pos rfl] at h
      cases h
  · rw [Bool.not_eq_true] at hseen
    rw [hseen, Bool.not_false, if_pos rfl] at h
    cases h

/-- An entry that passes is applied, and what it says is held. -/
theorem applyEntry_passes (h : a.holding.Passes e) : ∃ b, applyEntry e a = .ok () b ∧
    b.holding = a.holding.takes e ∧ b.rootOid = a.rootOid ∧ b.watermark = a.watermark := by
  cases e with
  | row x =>
      rcases h with ⟨row, hrow⟩
      refine ⟨{ a with types := a.types.set row.1 row.2 }, ?_, ?_, rfl, rfl⟩
      · exact bind_run_ok (ofExcept_run_ok hrow a)
      · unfold holding Holding.takes
        rw [shape_row hrow]
        ext k : 2
        · rfl
        · exact Dict.get?_set _ _ _ _
  | op x =>
      rcases h with ⟨op, cid, oid, hread, hfits⟩
      rcases opResult_fits hfits with ⟨objects, hresult, hobjects⟩
      refine ⟨{ a with objects := objects }, ?_, ?_, rfl, rfl⟩
      · change (ofExcept (readOp x) >>= _ : EStateM ApplyErr ReferenceApplier Unit) a = _
        rw [bind_run_ok (ofExcept_run_ok hread a), bind_run_ok (get_run a),
          bind_run_ok (ofExcept_run_ok hresult a)]
        rfl
      · unfold holding Holding.takes
        rw [record_op hread hfits.record]
        ext k : 2
        · exact hobjects k
        · rfl
  | broken => exact h.elim

/-- An entry that does not pass raises, and nothing has changed. -/
theorem applyEntry_refused (h : ¬a.holding.Passes e) :
    ∃ err, applyEntry e a = .error err a := by
  cases e with
  | row x =>
      cases hrow : readRow x with
      | ok row => exact absurd ⟨row, hrow⟩ h
      | error err =>
          refine ⟨err, ?_⟩
          change (ofExcept (readRow x) >>= _ : EStateM ApplyErr ReferenceApplier Unit) a = _
          rw [hrow]
          rfl
  | op x =>
      change ∃ err, (ofExcept (readOp x) >>= _ : EStateM ApplyErr ReferenceApplier Unit) a = _
      cases hread : readOp x with
      | error err => exact ⟨err, rfl⟩
      | ok op =>
          cases hresult : a.opResult op with
          | ok objects =>
              rcases fits_of_opResult hresult with ⟨cid, oid, hfits⟩
              exact absurd ⟨op, cid, oid, hread, hfits⟩ h
          | error err =>
              refine ⟨err, ?_⟩
              rw [bind_run_ok (ofExcept_run_ok rfl a), bind_run_ok (get_run a), hresult]
              rfl
  | broken => exact ⟨.malformed, rfl⟩

/-- Entries that all pass are applied, one after the other. -/
theorem forM_allPass (es : List Entry) : ∀ a : ReferenceApplier, a.holding.AllPass es →
    ∃ b, es.forM applyEntry a = .ok () b ∧ b.holding = a.holding.after es ∧
      b.rootOid = a.rootOid ∧ b.watermark = a.watermark := by
  induction es with
  | nil => exact fun a _ => ⟨a, rfl, rfl, rfl, rfl⟩
  | cons e es ih =>
      intro a h
      rcases applyEntry_passes h.1 with ⟨b, hrun, hheld, hroot, hmark⟩
      rcases ih b (by rw [hheld]; exact h.2) with ⟨c, hruns, hheld', hroot', hmark'⟩
      refine ⟨c, ?_, ?_, hroot'.trans hroot, hmark'.trans hmark⟩
      · rw [forM_cons_run, bind_run_ok hrun]
        exact hruns
      · rw [hheld', hheld]
        rfl

/-- What stands in front of the first entry that does not pass is applied. -/
theorem forM_before {pre : List Entry} (h : a.holding.Before es pre) :
    ∃ err b, es.forM applyEntry a = .error err b ∧ b.holding = a.holding.after pre ∧
      b.rootOid = a.rootOid ∧ b.watermark = a.watermark := by
  rcases h with ⟨bad, post, rfl, hpre, hbad⟩
  rcases forM_allPass pre a hpre with ⟨b, hrun, hheld, hroot, hmark⟩
  rcases applyEntry_refused (a := b) (by rw [hheld]; exact hbad) with ⟨err, herr⟩
  refine ⟨err, b, ?_, hheld, hroot, hmark⟩
  rw [forM_append_run_ok _ hrun, forM_cons_run, bind_run_error herr]

/-- A delta is applied if and only if it is due and all its entries pass, or was
    applied before. -/
theorem apply_returns_iff : (∃ x b, apply delta a = .ok x b) ↔
    due a.watermark delta = .ok none ∨
      ∃ tid, due a.watermark delta = .ok (some tid) ∧ a.holding.AllPass (entries delta) := by
  rw [apply_run]
  cases hdue : due a.watermark delta with
  | error err => simp
  | ok tid =>
      cases tid with
      | none => simp
      | some tid =>
          rcases Holding.allPass_or (entries delta) a.holding with hall | ⟨pre, hpre⟩
          · rcases forM_allPass _ a hall with ⟨b, hrun, -⟩
            refine ⟨fun _ => Or.inr ⟨tid, rfl, hall⟩, fun _ => ?_⟩
            dsimp only
            rw [bind_run_ok hrun]
            exact ⟨true, _, rfl⟩
          · rcases forM_before hpre with ⟨err, b, hrun, -⟩
            dsimp only
            rw [bind_run_error hrun]
            constructor
            · rintro ⟨x, c, hc⟩
              cases hc
            · rintro (hskip | ⟨tid', hdue', hall⟩)
              · cases hskip
              · exact absurd hall hpre.not_allPass

/-- A delta that leaves no trace if it is refused: everything is as before, and every
    delta can be applied that could be applied before. -/
def Atomic (a : ReferenceApplier) (delta : List (Item × Item)) : Prop :=
  ∀ err b, apply delta a = .error err b → SameState b a ∧
    ∀ delta', (∃ x c, apply delta' b = .ok x c) ↔ ∃ x c, apply delta' a = .ok x c

/-- A delta whose entries in front of the first that does not pass, if its turn has
    come, put back what is held. -/
def Harmless (a : ReferenceApplier) (delta : List (Item × Item)) : Prop :=
  ∀ tid, due a.watermark delta = .ok (some tid) →
    ∀ pre, a.holding.Before (entries delta) pre → a.holding.Restores pre

theorem SameState.returns_iff (h : SameState b a) (delta : List (Item × Item)) :
    (∃ x c, apply delta b = .ok x c) ↔ ∃ x c, apply delta a = .ok x c := by
  rw [apply_returns_iff, apply_returns_iff, h.holding, h.watermark]

/-- A refused delta leaves no trace if and only if what stands in front of its first
    entry that does not pass puts back what was held. -/
theorem apply_atomic_iff (a : ReferenceApplier) (delta : List (Item × Item)) :
    a.Atomic delta ↔ a.Harmless delta := by
  constructor
  · intro h tid hdue pre hpre
    rcases forM_before hpre with ⟨err, b, hrun, hheld, hroot, hmark⟩
    have herror : apply delta a = .error err b := by
      rw [apply_run, hdue]
      exact bind_run_error hrun
    rw [← Holding.after_eq_iff, ← hheld]
    exact (h err b herror).1.holding
  · intro h err b herror
    have hsame : SameState b a := by
      rw [apply_run] at herror
      cases hdue : due a.watermark delta with
      | error err' =>
          rw [hdue] at herror
          cases herror
          exact ⟨rfl, rfl, rfl⟩
      | ok tid =>
          rw [hdue] at herror
          cases tid with
          | none => cases herror
          | some tid =>
              dsimp only at herror
              rcases Holding.allPass_or (entries delta) a.holding with hall | ⟨pre, hpre⟩
              · rcases forM_allPass _ a hall with ⟨c, hrun, -⟩
                rw [bind_run_ok hrun] at herror
                cases herror
              · rcases forM_before hpre with ⟨err', c, hrun, hheld, hroot, hmark⟩
                rw [bind_run_error hrun] at herror
                cases herror
                exact ⟨hheld.trans ((Holding.after_eq_iff _ _).mpr (h tid hdue pre hpre)), hroot,
                  hmark⟩
    exact ⟨hsame, hsame.returns_iff⟩

/-- The operation of a delta that writes a record. -/
def upsertItem (oid cid : ℤ) (payload : Bytes) : Item :=
  .map [(.str "op", .str "upsert"), (.str "oid", .int oid), (.str "cid", .int cid),
    (.str "payload", .bin payload), (.str "prior", .nil)]

/-- A first delta with one shape. -/
def firstDelta (ops : List Item) : List (Item × Item) :=
  [(.str "f", .str formatMarker), (.str "v", .int contractVersion), (.str "tid", .int 1),
    (.str "actor", .int 0), (.str "at", .nil), (.str "ops", .array ops),
    (.str "types", .array [.array [.int 1, .str "note", .array [.str "text"]]]),
    (.str "root", .nil)]

/-- The second of two records is of a shape nobody has seen, and the first is taken in. -/
theorem half_applied : ¬∀ a delta, Atomic a delta := by
  intro h
  have hrun : ∃ b, apply (firstDelta [upsertItem 1 1 [7], upsertItem 2 9 [8]]) {} =
      .error .unseenCid b ∧ b.objects.get? (.int 1) = some [7] := ⟨_, rfl, rfl⟩
  rcases hrun with ⟨b, herror, hheld⟩
  have hsame := (h {} _ _ b herror).1.holding
  have hobjects : b.objects.get? (.int 1) = none := congrFun (congrArg Holding.objects hsame) _
  rw [hheld] at hobjects
  cases hobjects

end ReferenceApplier

namespace Applier

variable {a b : Applier} {op : DeltaOp}

/-- An operation is applied if its shape is known, its prior is what is held, and it
    writes a payload or deletes what is there. -/
theorem applyOp_ok_iff : applyOp op a = .ok () b ↔
    a.types.contains op.cid = true ∧ op.prior = a.objects.get? op.oid ∧
      ((op.kind = .upsert ∧ ∃ payload, op.payload = some payload ∧
          b = { a with objects := a.objects.set op.oid payload }) ∨
        (op.kind = .delete ∧ op.prior ≠ none ∧
          b = { a with objects := a.objects.erase op.oid })) := by
  unfold applyOp
  rw [bind_run_ok (get_run a)]
  by_cases hcid : a.types.contains op.cid = true
  · by_cases hprior : op.prior = a.objects.get? op.oid
    · rw [hcid, Bool.not_true, if_neg Bool.false_ne_true, if_neg (not_not_intro hprior)]
      cases hkind : op.kind with
      | upsert =>
          cases hpayload : op.payload with
          | none => simp [throw_run]
          | some payload => simp [set_run, hprior, eq_comm]
      | delete =>
          rw [hprior]
          cases hheld : a.objects.get? op.oid with
          | none => simp [throw_run]
          | some payload => simp [set_run, eq_comm]
      | other => simp [throw_run]
    · rw [hcid, Bool.not_true, if_neg Bool.false_ne_true, if_pos hprior]
      simp [throw_run, hprior]
  · rw [Bool.not_eq_true] at hcid
    rw [hcid, Bool.not_false, if_pos rfl]
    simp [throw_run]

/-- An operation that is refused changes nothing. -/
theorem applyOp_error {err : DeltaErr} (h : applyOp op a = .error err b) : b = a := by
  unfold applyOp at h
  rw [bind_run_ok (get_run a)] at h
  by_cases hcid : (!a.types.contains op.cid) = true
  · rw [if_pos hcid] at h
    cases h
    rfl
  · rw [if_neg hcid] at h
    by_cases hprior : op.prior ≠ a.objects.get? op.oid
    · rw [if_pos hprior] at h
      cases h
      rfl
    · rw [if_neg hprior] at h
      cases hkind : op.kind with
      | upsert =>
          cases hpayload : op.payload with
          | none =>
              rw [hkind, hpayload] at h
              cases h
              rfl
          | some payload =>
              rw [hkind, hpayload] at h
              cases h
      | delete =>
          cases hheld : a.objects.get? op.oid with
          | none =>
              simp only [hkind, hheld] at h
              cases h
              rfl
          | some payload =>
              simp only [hkind, hheld] at h
              cases h
      | other =>
          rw [hkind] at h
          cases h
          rfl

end Applier

section Items

variable (bytesOf : Payload → Bytes)

/-- The text of a kind of operation. -/
def DeltaKind.text : DeltaKind → String
  | .upsert => "upsert"
  | .delete => "delete"
  | .other => "other"

/-- Bytes, or nothing. -/
def payloadItem : Option Payload → Item
  | some payload => .bin (bytesOf payload)
  | none => .nil

/-- A number, or nothing. -/
def oidItem : Option Nat → Item
  | some oid => .int oid
  | none => .nil

/-- An operation as a map. -/
def DeltaOp.item (op : DeltaOp) : Item :=
  .map [(.str "op", .str op.kind.text), (.str "oid", .int op.oid), (.str "cid", .int op.cid),
    (.str "payload", payloadItem bytesOf op.payload), (.str "prior", payloadItem bytesOf op.prior)]

/-- A type row as a list. -/
def rowItem (row : TypeRow) : Item :=
  .array [.int row.1, .str row.2.1, .array (row.2.2.map .str)]

/-- A delta as the map it is decoded to. -/
def Delta.items (d : Delta) : List (Item × Item) :=
  [(.str "f", .str d.marker), (.str "v", .int d.version), (.str "tid", .int d.tid),
    (.str "actor", .int d.actor), (.str "at", .nil),
    (.str "ops", .array (d.ops.map (DeltaOp.item bytesOf))),
    (.str "types", .array (d.types.map rowItem)), (.str "root", oidItem d.rootOid)]

/-- A shape as a row has it. -/
def shapeItems (shape : String × List String) : Item × List Item :=
  (.str shape.1, shape.2.map .str)

namespace ReferenceApplier

/-- A consumer of maps that holds what a consumer of deltas holds, each number as an
    integer item and each payload as its bytes. -/
structure Represents (r : ReferenceApplier) (a : Applier) : Prop where
  objects : ∀ oid : Nat, r.objects.get? (.int oid) = (a.objects.get? oid).map bytesOf
  types : ∀ cid : Nat, r.types.get? (.int cid) = (a.types.get? cid).map shapeItems
  rootOid : r.rootOid = oidItem a.rootOid
  watermark : r.watermark = a.watermark

variable {bytesOf} {r s : ReferenceApplier} {a b : Applier} {op : DeltaOp} {row : TypeRow}

theorem readOp_item (op : DeltaOp) : readOp (op.item bytesOf) = .ok ⟨.str op.kind.text,
    .int op.oid, .int op.cid, payloadItem bytesOf op.payload, payloadItem bytesOf op.prior⟩ := by
  rfl

/-- A row is taken in on both sides. -/
theorem applyRow_represents (h : Represents bytesOf r a) :
    ∃ s, applyRow (rowItem row) r = .ok () s ∧ Represents bytesOf s (Applier.learn [row] a) := by
  refine ⟨{ r with types := r.types.set (.int row.1) (shapeItems row.2) }, rfl, h.objects,
    fun cid => ?_, h.rootOid, h.watermark⟩
  change (r.types.set (.int row.1) (shapeItems row.2)).get? (.int cid) =
    ((a.types.set row.1 row.2).get? cid).map shapeItems
  rw [Dict.get?_set, Dict.get?_set]
  by_cases hcid : cid = row.1
  · rw [if_pos hcid, if_pos (by rw [hcid])]
    rfl
  · rw [if_neg hcid, if_neg fun heq => hcid (by injection heq with heq; exact Int.ofNat.inj heq)]
    exact h.types cid

theorem int_key_inj {m n : Nat} (h : Item.Key.int m = .int n) : m = n := by
  injection h with h
  exact Int.ofNat.inj h

theorem text_is_upsert (kind : DeltaKind) : Item.is "upsert" (.str kind.text) = true ↔
    kind = .upsert := by
  cases kind <;> simp [Item.is, DeltaKind.text]

theorem text_is_delete (kind : DeltaKind) : Item.is "delete" (.str kind.text) = true ↔
    kind = .delete := by
  cases kind <;> simp [Item.is, DeltaKind.text]

theorem bytes?_payloadItem (payload : Option Payload) :
    (payloadItem bytesOf payload).bytes? = payload.map bytesOf := by
  cases payload <;> rfl

theorem same_payloadItem (hinj : Function.Injective bytesOf) (prior held : Option Payload) :
    (payloadItem bytesOf prior).same (held.map bytesOf) = true ↔ prior = held := by
  cases prior with
  | none => cases held <;> simp [payloadItem, Item.same]
  | some payload =>
      cases held with
      | none => simp [payloadItem, Item.same]
      | some payload' => simp [payloadItem, Item.same, hinj.eq_iff]

/-- An operation fits on one side if it is applied on the other. -/
theorem fits_item_iff (hinj : Function.Injective bytesOf) (h : Represents bytesOf r a) :
    r.holding.Passes (.op (op.item bytesOf)) ↔ ∃ b, Applier.applyOp op a = .ok () b := by
  -- Both sides know the same classes, and the same records under their bytes.
  have hseen : (r.types.get? (.int op.cid)).isSome = a.types.contains op.cid := by
    rw [h.types, Option.isSome_map]
    rfl
  have hprior : (payloadItem bytesOf op.prior).same (r.objects.get? (.int op.oid)) = true ↔
      op.prior = a.objects.get? op.oid := by
    rw [h.objects, same_payloadItem hinj]
  constructor
  · rintro ⟨f, cid, oid, hread, hfits⟩
    rw [readOp_item] at hread
    cases hread
    cases hfits.shape
    cases hfits.record
    have hknown : a.types.contains op.cid = true := hseen.symm.trans hfits.seen
    have hheld := hprior.mp hfits.prior
    rcases hfits.kind with ⟨hkind, hpayload⟩ | ⟨hkind, hthere⟩
    · rw [bytes?_payloadItem, Option.isSome_map] at hpayload
      rcases Option.isSome_iff_exists.mp hpayload with ⟨payload, hsome⟩
      exact ⟨_, Applier.applyOp_ok_iff.mpr ⟨hknown, hheld,
        Or.inl ⟨(text_is_upsert _).mp hkind, payload, hsome, rfl⟩⟩⟩
    · refine ⟨_, Applier.applyOp_ok_iff.mpr ⟨hknown, hheld,
        Or.inr ⟨(text_is_delete _).mp hkind, fun hnone => ?_, rfl⟩⟩⟩
      -- The prior is what is there, so there is a record to delete.
      have hthere' : (r.objects.get? (.int op.oid)).isSome = true := hthere
      rw [h.objects, ← hheld, hnone] at hthere'
      cases hthere'
  · rintro ⟨b, hb⟩
    rcases Applier.applyOp_ok_iff.mp hb with ⟨hknown, hheld, hkind⟩
    refine ⟨_, .int op.cid, .int op.oid, readOp_item op, rfl, hseen.trans hknown, rfl,
      hprior.mpr hheld, ?_⟩
    rcases hkind with ⟨hkind, payload, hpayload, -⟩ | ⟨hkind, hthere, -⟩
    · refine Or.inl ⟨(text_is_upsert _).mpr hkind, ?_⟩
      rw [bytes?_payloadItem, hpayload]
      rfl
    · refine Or.inr ⟨(text_is_delete _).mpr hkind, ?_⟩
      change (r.objects.get? (.int op.oid)).isSome = true
      rw [h.objects, Option.isSome_map, ← hheld]
      exact Option.isSome_iff_ne_none.mpr hthere

/-- An operation is applied on both sides or on none. -/
theorem applyOp_represents (hinj : Function.Injective bytesOf) (h : Represents bytesOf r a) :
    match Applier.applyOp op a with
    | .ok _ b => ∃ s, applyOp (op.item bytesOf) r = .ok () s ∧ Represents bytesOf s b
    | .error _ b => b = a ∧ ∃ err, applyOp (op.item bytesOf) r = .error err r := by
  cases hop : Applier.applyOp op a with
  | error e b =>
      have hnot : ¬r.holding.Passes (.op (op.item bytesOf)) := by
        intro hpass
        rcases (fits_item_iff hinj h).mp hpass with ⟨c, hc⟩
        rw [hop] at hc
        cases hc
      exact ⟨Applier.applyOp_error hop, applyEntry_refused hnot⟩
  | ok u b =>
      rcases applyEntry_passes ((fits_item_iff hinj h).mpr ⟨b, hop⟩) with
        ⟨s, hrun, hheld, hroot, hmark⟩
      have hrecord : (Entry.op (op.item bytesOf)).record = some (.int op.oid, _) :=
        record_op (readOp_item op) rfl
      -- The entry writes one record: the payload of an upsert, or nothing.
      have hobjects : ∀ k : Nat, s.objects.get? (.int k) = if k = op.oid then
          (if op.kind = .upsert then op.payload.map bytesOf else none)
          else (a.objects.get? k).map bytesOf := by
        intro k
        have hk := congrFun (congrArg Holding.objects hheld) (.int k)
        unfold Holding.takes at hk
        rw [hrecord] at hk
        refine hk.trans ?_
        change (if Item.Key.int k = .int op.oid then _ else r.objects.get? (.int k)) = _
        by_cases heq : k = op.oid
        · rw [if_pos heq, if_pos (by rw [heq]), bytes?_payloadItem]
          by_cases hkind : op.kind = .upsert
          · rw [if_pos hkind, if_pos ((text_is_upsert _).mpr hkind)]
          · rw [if_neg hkind, if_neg fun htext => hkind ((text_is_upsert _).mp htext)]
        · rw [if_neg heq, if_neg fun hkey => heq (int_key_inj hkey), h.objects]
      have htypes : ∀ cid : Nat, s.types.get? (.int cid) = (a.types.get? cid).map shapeItems :=
        fun cid => (congrFun (congrArg Holding.types hheld) (.int cid)).trans (h.types cid)
      refine ⟨s, hrun, ?_⟩
      -- An upsert sets the record, a delete erases it.
      rcases Applier.applyOp_ok_iff.mp hop with ⟨-, -, ⟨hkind, payload, hpayload, rfl⟩ |
        ⟨hkind, -, rfl⟩⟩
      · refine ⟨fun k => ?_, htypes, hroot.trans h.rootOid, hmark.trans h.watermark⟩
        rw [hobjects, if_pos hkind, Dict.get?_set, hpayload]
        by_cases hk : k = op.oid
        · rw [if_pos hk, if_pos hk]
        · rw [if_neg hk, if_neg hk]
      · have hother : op.kind ≠ .upsert := by
          rw [hkind]
          decide
        refine ⟨fun k => ?_, htypes, hroot.trans h.rootOid, hmark.trans h.watermark⟩
        rw [hobjects, if_neg hother, Dict.get?_erase]
        by_cases hk : k = op.oid
        · rw [if_pos hk, if_pos hk]
          rfl
        · rw [if_neg hk, if_neg hk]

theorem applyRows_represents (rows : List TypeRow) : ∀ {r : ReferenceApplier} {a : Applier},
    Represents bytesOf r a → ∃ s, (rows.map rowItem).forM applyRow r = .ok () s ∧
      Represents bytesOf s (Applier.learn rows a) := by
  induction rows with
  | nil => exact fun {r a} h => ⟨r, rfl, h⟩
  | cons row rows ih =>
      intro r a h
      rcases @applyRow_represents _ _ _ row h with ⟨s, hrun, hs⟩
      rcases ih hs with ⟨t, hruns, ht⟩
      refine ⟨t, ?_, ht⟩
      rw [List.map_cons, forM_cons_run, bind_run_ok hrun]
      exact hruns

theorem applyOps_represents (hinj : Function.Injective bytesOf) (ops : List DeltaOp) :
    ∀ {r : ReferenceApplier} {a : Applier}, Represents bytesOf r a →
      match ops.forM Applier.applyOp a with
      | .ok _ b => ∃ s, (ops.map (DeltaOp.item bytesOf)).forM applyOp r = .ok () s ∧
          Represents bytesOf s b
      | .error _ b => ∃ err s, (ops.map (DeltaOp.item bytesOf)).forM applyOp r = .error err s ∧
          Represents bytesOf s b := by
  induction ops with
  | nil => exact fun {r a} h => ⟨r, rfl, h⟩
  | cons op ops ih =>
      intro r a h
      have hone := @applyOp_represents _ _ _ op hinj h
      rw [List.map_cons, forM_cons_run, forM_cons_run, bind_run]
      cases hop : Applier.applyOp op a with
      | error e b =>
          rw [hop] at hone
          rcases hone with ⟨rfl, err, herr⟩
          exact ⟨err, r, bind_run_error herr, h⟩
      | ok u b =>
          rw [hop] at hone
          rcases hone with ⟨s, hrun, hs⟩
          rw [bind_run_ok hrun]
          exact ih hs

theorem checkMapHeader_items (d : Delta) : checkMapHeader (d.items bytesOf) =
    if d.marker = formatMarker then checkVersion (some (.int d.version))
    else .error .foreignMarker := by
  by_cases hmarker : d.marker = formatMarker
  · rw [if_pos hmarker]
    unfold checkMapHeader
    refine if_pos ?_
    change decide (d.marker = formatMarker) = true
    exact decide_eq_true hmarker
  · rw [if_neg hmarker]
    unfold checkMapHeader
    refine if_neg ?_
    change ¬decide (d.marker = formatMarker) = true
    rw [decide_eq_true_eq]
    exact hmarker

/-- A map that a delta is decoded to is judged as the delta is. -/
theorem due_items (d : Delta) (watermark : Nat) :
    (checkDeltaHeader d = .ok () → due watermark (d.items bytesOf) =
      if d.tid ≤ watermark then .ok none
      else if d.tid ≠ watermark + 1 then .error (.gap watermark d.tid)
      else .ok (some (d.tid : ℤ))) ∧
    ∀ e, checkDeltaHeader d = .error e → ∃ err, due watermark (d.items bytesOf) = .error err := by
  -- Behind a header that passes only the number of the delta is judged.
  have hrest : checkMapHeader (d.items bytesOf) = .ok () → due watermark (d.items bytesOf) =
      if (d.tid : ℤ) ≤ watermark then .ok none
      else if (d.tid : ℤ) ≠ watermark + 1 then .error (.gap watermark d.tid)
      else .ok (some (d.tid : ℤ)) := by
    intro hheader
    unfold due
    rw [hheader]
    rfl
  constructor
  · intro hok
    have hheader : checkMapHeader (d.items bytesOf) = .ok () := by
      unfold checkDeltaHeader at hok
      by_cases hmarker : d.marker = formatMarker
      · rw [if_neg (not_not_intro hmarker)] at hok
        rw [checkMapHeader_items, if_pos hmarker]
        unfold checkVersion
        by_cases hversion : d.version = contractVersion
        · exact if_pos hversion
        · rw [if_neg hversion] at hok
          split at hok <;> cases hok
      · rw [if_pos hmarker] at hok
        cases hok
    rw [hrest hheader]
    by_cases hold : d.tid ≤ watermark
    · rw [if_pos hold, if_pos (by omega)]
    · by_cases hgap : d.tid ≠ watermark + 1
      · rw [if_neg hold, if_neg (by omega), if_pos hgap, if_pos (by omega)]
      · rw [if_neg hold, if_neg (by omega), if_neg hgap, if_neg (by omega)]
  -- Each way the header of a delta is refused is a way the map is.
  · intro e herr
    have hheader : ∃ err, checkMapHeader (d.items bytesOf) = .error err := by
      rw [checkMapHeader_items]
      unfold checkDeltaHeader at herr
      by_cases hmarker : d.marker = formatMarker
      · rw [if_pos hmarker]
        rw [if_neg (not_not_intro hmarker)] at herr
        unfold checkVersion
        by_cases hversion : d.version = contractVersion
        · rw [if_pos hversion] at herr
          cases herr
        · dsimp only
          rw [if_neg hversion]
          by_cases hnewer : contractVersion < d.version
          · exact ⟨_, if_pos hnewer⟩
          · exact ⟨_, if_neg hnewer⟩
      · exact ⟨_, if_neg hmarker⟩
    rcases hheader with ⟨err, hheader⟩
    refine ⟨err, ?_⟩
    unfold due
    rw [hheader]
    rfl

/-- The consumer of maps does to the map of a delta what the consumer of deltas does
    to the delta. -/
theorem apply_items (hinj : Function.Injective bytesOf) (d : Delta)
    (h : Represents bytesOf r a) :
    match Applier.apply d a with
    | .ok x b => ∃ s, apply (d.items bytesOf) r = .ok x s ∧ Represents bytesOf s b
    | .error _ b => ∃ err s, apply (d.items bytesOf) r = .error err s ∧ Represents bytesOf s b := by
  rw [apply_run, h.watermark]
  rcases @due_items bytesOf d a.watermark with ⟨hjudged, hrefused⟩
  unfold Applier.apply
  cases hheader : checkDeltaHeader d with
  | error e =>
      rcases hrefused e hheader with ⟨err, herr⟩
      rw [herr]
      exact ⟨err, r, rfl, h⟩
  | ok u =>
      rw [bind_run_ok (ofExcept_run_ok rfl a), bind_run_ok (get_run a), hjudged hheader]
      by_cases hold : d.tid ≤ a.watermark
      · rw [if_pos hold, if_pos hold]
        exact ⟨r, rfl, h⟩
      · by_cases hgap : d.tid ≠ a.watermark + 1
        · rw [if_neg hold, if_neg hold, if_pos hgap, if_pos hgap]
          exact ⟨_, r, rfl, h⟩
        · rw [if_neg hold, if_neg hold, if_neg hgap, if_neg hgap, bind_run_ok (modify_run _ a)]
          -- The loop over the entries is one over the rows, then one over the operations.
          have hraw : ∀ f : Unit → EStateM ApplyErr ReferenceApplier Bool,
              ((entries (d.items bytesOf)).forM applyEntry >>= f) r =
                ((d.types.map rowItem).forM applyRow >>= fun _ =>
                  (d.ops.map (DeltaOp.item bytesOf)).forM applyOp >>= f) r := by
            intro f
            rw [entries_loop]
            rfl
          dsimp only
          rcases applyRows_represents d.types h with ⟨s, hrows, hs⟩
          have hops := applyOps_represents hinj d.ops hs
          rw [hraw, bind_run_ok hrows]
          cases hrun : d.ops.forM Applier.applyOp (Applier.learn d.types a) with
          | error e b =>
              rw [hrun] at hops
              rcases hops with ⟨err, t, herr, ht⟩
              rw [bind_run_error hrun]
              exact ⟨err, t, bind_run_error herr, ht⟩
          | ok u b =>
              rw [hrun] at hops
              rcases hops with ⟨t, hok, ht⟩
              rw [bind_run_ok hrun, bind_run_ok hok]
              exact ⟨{ t with rootOid := oidItem d.rootOid, watermark := d.tid }, rfl, ht.objects,
                ht.types, rfl, rfl⟩

end ReferenceApplier

end Items

end DataCrystal
