import DataCrystal.LogCrash
import DataCrystal.Served
import DataCrystal.ReferenceApplier

/-!
# What a Log Accepts Can Be Replayed

A delta log stores bytes and looks at a delta only when it takes it in. Whatever it
does not refuse then, the applier that replays the log meets years later. The log
checks the marker, the version, the keys of the delta and the kinds of its
operations; the applier also wants the keys of every operation and the payload of
every upsert, so a delta that lacks one of these is kept and cannot be replayed.

A log that joins a store in mid-stream keeps what comes after, and its replay starts
with the shapes of that moment and no record. It comes to an end as long as no delta
is about a record that was there before. The first that is has a prior the replay
knows nothing of.

## Main definitions

* `DeltaLog.applyMap`: Take a delta of any shape in.
* `WellShaped`: An operation with all its keys and its payload.
* `Unpacks`: A map with rows and ids that can be unpacked.
* `DeltaLog.replayedState`: What a replay of the log makes.
* `Recorded`: A store with a log attached to it.

## Theorems

* `intake_shaped`: What a log takes in has the shape the applier wants, if its
  operations have theirs.
* `replay_partial_iff`: When a consumer that joined late can follow.
* `log_replayable`: All of it, for every run.
-/

namespace DataCrystal

open Store

/-- How maps are put into bytes. -/
structure MapCodec where
  encode : List (Item × Item) → Except ApplyErr Bytes
  decode : Bytes → Except ApplyErr (List (Item × Item))

/-- The exceptions of a log that is handed a map: the map is refused, or a flush fails. -/
inductive LogMapErr
  | refused (e : ApplyErr)
  | flush (e : LogErr)

/-- Refuse an operation of an unknown kind. -/
def checkOp (op : Item) : Except ApplyErr Unit := do
  let kind ← orMalformed (op.get? "op")
  if kind.is "upsert" || kind.is "delete" then .ok () else .error .unknownOp

namespace DeltaLog

/-- The log with the bytes of one more delta. -/
def pushed (tid : Nat) (raw : Bytes) (l : DeltaLog) : DeltaLog :=
  { l with
    buffer := l.buffer ++ [(tid, raw)]
    applied := tid
    appliesSinceFlush := l.appliesSinceFlush + 1 }

/-- The log that has taken a map in, unless it was taken in before. The checks of the
    header, the keys and the transaction are the applier's. -/
def intake (mc : MapCodec) (delta : List (Item × Item)) (l : DeltaLog) :
    Except ApplyErr (Option DeltaLog) := do
  match ← ReferenceApplier.due l.applied delta with
  | none => .ok none
  | some tid =>
    -- What an operation says it replaces is not looked at: there are no records here.
    let ops ← orMalformed (field "ops" delta).iter
    ops.forM checkOp
    let raw ← mc.encode delta
    .ok (some (l.pushed tid.toNat raw))

/-- Take one map in; whether it was new. -/
def applyMap (mc : MapCodec) (fault : Option FileStep) (delta : List (Item × Item)) :
    EStateM LogMapErr LogWorld Bool := do
  let w ← get
  match ← ofExcept ((w.log.intake mc delta).mapError .refused) with
  | none => pure false
  | some log =>
    -- Taken in before the flush, which may fail.
    set { w with log := log }
    if log.params.flushEvery ≤ log.appliesSinceFlush then EStateM.adaptExcept .flush (flush fault)
    pure true

end DeltaLog

/-- An error about the shape of a delta: a key that is missing, an operation that is not
    known, a payload of another kind. -/
def ApplyErr.OfShape : ApplyErr → Prop
  | .missingKey _ => True
  | .opMissingKey _ => True
  | .unknownOp => True
  | .noPayload => True
  | _ => False

/-- An operation with all its keys, and with bytes where it writes. The log asks for
    neither, so a map without this is one that it takes in and an applier refuses.
    -/
structure WellShaped (op : Item) : Prop where
  keys : ∃ entries, op = .map entries ∧
    ∀ key ∈ requiredOpKeys, (lookup key entries).isSome = true
  payload : (op.get? "op").any (Item.is "upsert") = true →
    ∃ bs, op.get? "payload" = some (.bin bs)

/-- A map whose type rows can be unpacked, and whose operations have ids that are
    keys. The source unpacks and looks up without a check, so it raises a
    `TypeError` or a `ValueError` on any other map. -/
structure Unpacks (delta : List (Item × Item)) : Prop where
  rows : ∃ rows, (field "types" delta).iter = some rows ∧ ∀ row ∈ rows, ∃ r, readRow row = .ok r
  ids : ∀ ops, (field "ops" delta).iter = some ops → ∀ op ∈ ops, ∀ key ∈ ["oid", "cid"],
    ((op.get? key).bind Item.key).isSome = true

theorem readRow_error {row : Item} {err : ApplyErr} (h : readRow row = .error err) :
    err = .malformed := by
  unfold readRow orMalformed at h
  cases hrow : row.iter with
  | none =>
      rw [hrow] at h
      cases h
      rfl
  | some xs =>
      rw [hrow] at h
      match xs with
      | [cid, typename, fields] =>
          cases hfields : fields.iter with
          | none =>
              simp only [bind, Except.bind, hfields] at h
              cases h
              rfl
          | some names =>
              cases hcid : cid.key with
              | none =>
                  simp only [bind, Except.bind, hfields, hcid] at h
                  cases h
                  rfl
              | some k =>
                  simp only [bind, Except.bind, hfields, hcid] at h
                  cases h
      | [] | [_] | [_, _] | _ :: _ :: _ :: _ :: _ =>
          simp only [bind, Except.bind] at h
          cases h
          rfl

/-- The keys of a map are found and read. -/
theorem readOp_of_keys {entries : List (Item × Item)}
    (h : ∀ key ∈ requiredOpKeys, (lookup key entries).isSome = true) :
    ∃ kind oid cid payload prior, readOp (.map entries) = .ok ⟨kind, oid, cid, payload, prior⟩ ∧
      lookup "op" entries = some kind ∧ lookup "oid" entries = some oid ∧
      lookup "cid" entries = some cid ∧ lookup "payload" entries = some payload := by
  have hkey : ∀ key ∈ requiredOpKeys, requireOpKey (.map entries) key = .ok () := by
    intro key hk
    unfold requireOpKey
    change (if (lookup key entries).isSome then _ else _) = Except.ok ()
    rw [if_pos (h key hk)]
  have hloop : requiredOpKeys.forM (requireOpKey (.map entries)) = .ok () :=
    (except_forM_ok_iff _).mpr hkey
  rcases Option.isSome_iff_exists.mp (h "op" (by simp [requiredOpKeys])) with ⟨kind, hkind⟩
  rcases Option.isSome_iff_exists.mp (h "oid" (by simp [requiredOpKeys])) with ⟨oid, hoid⟩
  rcases Option.isSome_iff_exists.mp (h "cid" (by simp [requiredOpKeys])) with ⟨cid, hcid⟩
  rcases Option.isSome_iff_exists.mp (h "payload" (by simp [requiredOpKeys])) with
    ⟨payload, hpayload⟩
  rcases Option.isSome_iff_exists.mp (h "prior" (by simp [requiredOpKeys])) with ⟨prior, hprior⟩
  refine ⟨kind, oid, cid, payload, prior, ?_, hkind, hoid, hcid, hpayload⟩
  unfold readOp
  rw [hloop]
  simp only [Item.get?, hkind, hoid, hcid, hpayload, hprior, orMalformed, bind, Except.bind]

namespace ReferenceApplier

variable {a b : ReferenceApplier} {delta : List (Item × Item)} {err : ApplyErr}

/-- What an operation with a known kind, and with bytes where it writes, can raise: nothing
    about its shape, and no `TypeError` if its ids are keys. -/
theorem opResult_error {op : ItemOp} (hkind : op.kind.is "upsert" = true ∨ op.kind.is "delete" = true)
    (hpayload : op.kind.is "upsert" = true → op.payload.bytes?.isSome = true)
    (h : a.opResult op = .error err) : ¬err.OfShape ∧
      (op.oid.key.isSome = true ∧ op.cid.key.isSome = true → err ≠ .malformed) := by
  unfold opResult orMalformed at h
  -- The checks of the applier in the order of the source: identities, type, prior version, and what
  -- the kind asks for. The shapes were checked when the log took the delta in.
  cases hcid : op.cid.key with
  | none =>
      rw [hcid] at h
      cases h
      exact ⟨id, fun hids => absurd hids.2 Bool.false_ne_true⟩
  | some cid =>
      rw [hcid] at h
      simp only [bind, Except.bind] at h
      by_cases hseen : (!a.types.contains cid) = true
      · rw [if_pos hseen] at h
        cases h
        exact ⟨id, fun _ => ApplyErr.noConfusion⟩
      · rw [if_neg hseen] at h
        cases hoid : op.oid.key with
        | none =>
            rw [hoid] at h
            cases h
            exact ⟨id, fun hids => absurd hids.1 Bool.false_ne_true⟩
        | some oid =>
            rw [hoid] at h
            dsimp only at h
            by_cases hprior : (!op.prior.same (a.objects.get? oid)) = true
            · rw [if_pos hprior] at h
              cases h
              exact ⟨id, fun _ => ApplyErr.noConfusion⟩
            · rw [if_neg hprior] at h
              by_cases hupsert : op.kind.is "upsert" = true
              · rcases Option.isSome_iff_exists.mp (hpayload hupsert) with ⟨bs, hbs⟩
                rw [if_pos hupsert, hbs] at h
                cases h
              · rw [if_neg hupsert, if_pos (hkind.resolve_left hupsert)] at h
                by_cases hnone : (a.objects.get? oid).isNone = true
                · rw [if_pos hnone] at h
                  cases h
                  exact ⟨id, fun _ => ApplyErr.noConfusion⟩
                · rw [if_neg hnone] at h
                  cases h

/-- An operation of the right shape is not refused for its shape. -/
theorem applyOp_shaped {op : Item} (hop : WellShaped op) (hknown : checkOp op = .ok ()) :
    RaisesOnly (fun _ => True) (fun err => ¬ApplyErr.OfShape err ∧
      ((∀ key ∈ ["oid", "cid"], ((op.get? key).bind Item.key).isSome = true) → err ≠ .malformed))
      (applyOp op) := by
  intro a _ err b h
  rcases hop.keys with ⟨entries, rfl, hkeys⟩
  rcases readOp_of_keys hkeys with
    ⟨kind, oid, cid, payload, prior, hread, hkind, hoid, hcid, hpayload⟩
  unfold applyOp at h
  rw [bind_run_ok (ofExcept_run_ok hread a), bind_run_ok (get_run a)] at h
  -- The kind is one of the two, as the log asked for.
  have hkinds : kind.is "upsert" = true ∨ kind.is "delete" = true := by
    unfold checkOp at hknown
    simp only [Item.get?, hkind, orMalformed, bind, Except.bind] at hknown
    split at hknown
    · rename_i hboth
      simpa using hboth
    · cases hknown
  -- And an upsert has a payload.
  have hbytes : kind.is "upsert" = true → payload.bytes?.isSome = true := by
    intro hupsert
    rcases hop.payload (by rw [Item.get?, hkind]; exact hupsert) with ⟨bs, hbs⟩
    rw [Item.get?, hpayload, Option.some.injEq] at hbs
    rw [hbs]
    rfl
  cases hresult : a.opResult ⟨kind, oid, cid, payload, prior⟩ with
  | ok objects =>
      rw [bind_run_ok (ofExcept_run_ok hresult a)] at h
      cases h
  | error e =>
      rw [hresult] at h
      cases h
      rcases opResult_error hkinds hbytes hresult with ⟨hshape, hids⟩
      -- So what is left to refuse is a prior, a class or an absent record.
      refine ⟨hshape, fun hkeyed => hids ⟨?_, ?_⟩⟩
      · have hfirst := hkeyed "oid" List.mem_cons_self
        rw [Item.get?, hoid] at hfirst
        exact hfirst
      · have hsecond := hkeyed "cid" (List.mem_cons_of_mem _ List.mem_cons_self)
        rw [Item.get?, hcid] at hsecond
        exact hsecond

/-- A map whose turn it is for one consumer is a gap at most for another. -/
theorem due_error {watermark watermark' : ℤ} {x : Option ℤ} (h : due watermark delta = .ok x)
    (herr : due watermark' delta = .error err) : ∃ tid, err = .gap watermark' tid := by
  unfold due at h herr
  rcases except_bind_ok_iff.mp h with ⟨_, hheader, h⟩
  rcases except_bind_ok_iff.mp h with ⟨_, hkeys, h⟩
  rcases except_bind_ok_iff.mp h with ⟨tid, htid, -⟩
  rw [hheader, hkeys, htid] at herr
  simp only [bind, Except.bind] at herr
  by_cases hold : tid ≤ watermark'
  · rw [if_pos hold] at herr
    cases herr
  · rw [if_neg hold] at herr
    by_cases hgap : tid ≠ watermark' + 1
    · rw [if_pos hgap] at herr
      cases herr
      exact ⟨tid, rfl⟩
    · rw [if_neg hgap] at herr
      cases herr

/-- The entries of a map with operations of the right shape. They are not refused for their
    shape, and if they can be unpacked they raise no `TypeError`. -/
theorem applyEntry_shaped {delta : List (Item × Item)} {e : Entry} (he : e ∈ entries delta)
    (h : ∀ ops, (field "ops" delta).iter = some ops → ∀ op ∈ ops, WellShaped op ∧ checkOp op = .ok ())
    (hiter : (field "ops" delta).iter.isSome = true) :
    RaisesOnly (fun _ => True) (fun err => ¬ApplyErr.OfShape err ∧ (Unpacks delta → err ≠ .malformed))
      (applyEntry e) := by
  intro a _ err b hrun
  rcases Option.isSome_iff_exists.mp hiter with ⟨ops, hops⟩
  -- An entry comes from a type row or from an operation.
  rcases List.mem_append.mp he with hrow | hop
  · unfold entriesOf at hrow
    cases hrows : (field "types" delta).iter with
    | none =>
        rw [hrows] at hrow
        rw [List.mem_singleton.mp hrow] at hrun
        cases hrun
        refine ⟨id, fun hunpacks => ?_⟩
        rcases hunpacks.rows with ⟨rows, hsome, -⟩
        rw [hrows] at hsome
        cases hsome
    -- A row that does not unpack is the one failure the checks of the log let through.
    | some rows =>
        rw [hrows] at hrow
        rcases List.mem_map.mp hrow with ⟨x, hx, rfl⟩
        change applyRow x a = _ at hrun
        unfold applyRow at hrun
        cases hread : readRow x with
        | ok row =>
            rw [bind_run_ok (ofExcept_run_ok hread a)] at hrun
            cases hrun
        | error e =>
            rw [hread] at hrun
            cases hrun
            rw [readRow_error hread]
            refine ⟨id, fun hunpacks => ?_⟩
            rcases hunpacks.rows with ⟨rows', hsome, hall⟩
            rw [hrows] at hsome
            cases hsome
            rcases hall x hx with ⟨r, hr⟩
            rw [hread] at hr
            cases hr
  · unfold entriesOf at hop
    rw [hops] at hop
    rcases List.mem_map.mp hop with ⟨x, hx, rfl⟩
    -- An operation has passed the checks of the log.
    have hshaped := h ops hops x hx
    rcases applyOp_shaped hshaped.1 hshaped.2 a trivial err b hrun with ⟨hshape, hids⟩
    exact ⟨hshape, fun hunpacks => hids (hunpacks.ids ops hops x hx)⟩

end ReferenceApplier

namespace DeltaLog

variable {mc : MapCodec} {delta : List (Item × Item)} {l l' : DeltaLog}

/-- What a log checks of a map it takes in. -/
theorem intake_ok (h : l.intake mc delta = .ok (some l')) : ∃ tid ops raw,
    ReferenceApplier.due l.applied delta = .ok (some tid) ∧ (field "ops" delta).iter = some ops ∧
      (∀ op ∈ ops, checkOp op = .ok ()) ∧ mc.encode delta = .ok raw ∧
      l' = l.pushed tid.toNat raw := by
  unfold intake at h
  rcases except_bind_ok_iff.mp h with ⟨x, hdue, h⟩
  cases x with
  | none => cases h
  | some tid =>
      rcases except_bind_ok_iff.mp h with ⟨ops, hops, h⟩
      rcases except_bind_ok_iff.mp h with ⟨_, hkinds, h⟩
      rcases except_bind_ok_iff.mp h with ⟨raw, hraw, h⟩
      cases h
      exact ⟨tid, ops, raw, hdue, orMalformed_ok hops, (except_forM_ok_iff _).mp hkinds, hraw, rfl⟩

/-- A map that is refused leaves the log and its files alone. -/
theorem applyMap_refused {fault : Option FileStep} {w w' : LogWorld} {err : ApplyErr}
    (h : applyMap mc fault delta w = .error (.refused err) w') : w' = w := by
  unfold applyMap at h
  rw [bind_run_ok (get_run w)] at h
  cases hintake : w.log.intake mc delta with
  | error e =>
      rw [hintake] at h
      cases h
      rfl
  | ok x =>
      rw [hintake] at h
      cases x with
      | none => cases h
      | some log =>
          -- From here on only a flush can fail.
          exfalso
          simp only [Except.mapError] at h
          rw [bind_run_ok (ofExcept_run_ok rfl w)] at h
          dsimp only at h
          rw [bind_run_ok (set_run _ w)] at h
          by_cases hflush : log.params.flushEvery ≤ log.appliesSinceFlush
          · rw [if_pos hflush, bind_run] at h
            unfold EStateM.adaptExcept at h
            cases hrun : flush fault { w with log := log } with
            | ok u t =>
                rw [hrun] at h
                cases h
            | error e t =>
                rw [hrun] at h
                cases h
          · rw [if_neg hflush] at h
            cases h

/-- What a log takes in has the shape that every applier wants, if its operations have
    theirs, and raises no `TypeError` if it can be unpacked. -/
theorem intake_shaped (h : l.intake mc delta = .ok (some l'))
    (hops : ∀ ops, (field "ops" delta).iter = some ops → ∀ op ∈ ops, WellShaped op)
    {a b : ReferenceApplier} {err : ApplyErr}
    (hrun : ReferenceApplier.apply delta a = .error err b) :
    ¬err.OfShape ∧ (Unpacks delta → err ≠ .malformed) := by
  rcases intake_ok h with ⟨tid, ops, raw, hdue, hiter, hkinds, -, -⟩
  rw [ReferenceApplier.apply_run] at hrun
  -- The applier is at this map, or ahead of it: the header has passed in both.
  cases hagain : ReferenceApplier.due a.watermark delta with
  | error e =>
      rw [hagain] at hrun
      cases hrun
      rcases ReferenceApplier.due_error hdue hagain with ⟨t, rfl⟩
      exact ⟨id, fun _ => ApplyErr.noConfusion⟩
  | ok x =>
      rw [hagain] at hrun
      cases x with
      | none => cases hrun
      | some t =>
          dsimp only at hrun
          -- The operations the log has taken in have a known kind.
          have hshaped : ∀ ops', (field "ops" delta).iter = some ops' → ∀ op ∈ ops',
              WellShaped op ∧ checkOp op = .ok () := by
            intro ops' hops' op hop
            refine ⟨hops ops' hops' op hop, hkinds op ?_⟩
            rw [hiter] at hops'
            cases hops'
            exact hop
          have hloop : RaisesOnly (fun _ => True)
              (fun err => ¬ApplyErr.OfShape err ∧ (Unpacks delta → err ≠ .malformed))
              ((entries delta).forM ReferenceApplier.applyEntry) :=
            raisesOnly_forM fun e he => ReferenceApplier.applyEntry_shaped he hshaped
              (by rw [hiter]; rfl)
          rw [bind_run] at hrun
          cases hforM : (entries delta).forM ReferenceApplier.applyEntry a with
          | ok u c =>
              rw [hforM] at hrun
              cases hrun
          | error e c =>
              rw [hforM] at hrun
              cases hrun
              exact hloop a trivial _ _ hforM

end DeltaLog

namespace Applier

/-- A consumer that takes deltas in, one after the other. -/
def Takes : Applier → List Delta → Applier → Prop
  | m, [], m' => m' = m
  | m, d :: ds, m' => ∃ m₁, apply d m = .ok true m₁ ∧ Takes m₁ ds m'

theorem Takes.snoc {ds : List Delta} {d : Delta} {m₁ m₂ : Applier} : ∀ {m : Applier},
    Takes m ds m₁ → apply d m₁ = .ok true m₂ → Takes m (ds ++ [d]) m₂ := by
  induction ds with
  | nil =>
      intro m h hd
      cases h
      exact ⟨m₂, hd, rfl⟩
  | cons e ds ih =>
      intro m h hd
      rcases h with ⟨m', he, hrest⟩
      exact ⟨m', he, ih hrest hd⟩

theorem Takes.left {ds ds' : List Delta} {m' : Applier} : ∀ {m : Applier},
    Takes m (ds ++ ds') m' → ∃ m₁, Takes m ds m₁ := by
  induction ds with
  | nil => exact fun _ => ⟨_, rfl⟩
  | cons d ds ih =>
      intro m h
      rcases h with ⟨m₁, hd, hrest⟩
      rcases ih hrest with ⟨m₂, h₂⟩
      exact ⟨m₂, m₁, hd, h₂⟩

theorem Takes.watermark {ds : List Delta} {m' : Applier} : ∀ {m : Applier},
    Takes m ds m' → m'.watermark = m.watermark + ds.length := by
  induction ds with
  | nil =>
      intro m h
      cases h
      rfl
  | cons d ds ih =>
      intro m h
      rcases h with ⟨m₁, hd, hrest⟩
      rcases apply_ok hd with ⟨-, htid, t, -, rfl⟩
      rw [ih hrest, List.length_cons]
      change d.tid + ds.length = _
      omega

/-- A consumer that joined late, beside one that held from the start what storage held
    when the other joined: they agree but for the records of before, which have not
    changed since. -/
structure Joined (was : Nat → Option Payload) (m a : Applier) : Prop where
  watermark : a.watermark = m.watermark
  types : ∀ cid, a.types.contains cid = m.types.contains cid
  old : ∀ k, was k ≠ none → m.objects.get? k = was k ∧ a.objects.get? k = none
  new : ∀ k, was k = none → a.objects.get? k = m.objects.get? k

variable {was : Nat → Option Payload} {m m' a : Applier} {op : DeltaOp} {d : Delta}

/-- An operation about a new record is applied by both. -/
theorem Joined.applyOp_new (h : Joined was m a) (hm : applyOp op m = .ok () m')
    (hnew : was op.oid = none) : ∃ a', applyOp op a = .ok () a' ∧ Joined was m' a' := by
  rcases applyOp_ok_iff.mp hm with ⟨hcid, hprior, hkind⟩
  have hcid' := (h.types op.cid).trans hcid
  have hprior' := hprior.trans (h.new op.oid hnew).symm
  have hother : ∀ k, was k ≠ none → k ≠ op.oid := fun k hk heq => hk (heq ▸ hnew)
  rcases hkind with ⟨hkind, payload, hpayload, rfl⟩ | ⟨hkind, hthere, rfl⟩
  · refine ⟨_, applyOp_ok_iff.mpr ⟨hcid', hprior', Or.inl ⟨hkind, payload, hpayload, rfl⟩⟩,
      h.watermark, h.types, fun k hk => ?_, fun k hk => ?_⟩
    · rw [Dict.get?_set_ne _ _ (hother k hk), Dict.get?_set_ne _ _ (hother k hk)]
      exact h.old k hk
    · rw [Dict.get?_set, Dict.get?_set, h.new k hk]
  · refine ⟨_, applyOp_ok_iff.mpr ⟨hcid', hprior', Or.inr ⟨hkind, hthere, rfl⟩⟩,
      h.watermark, h.types, fun k hk => ?_, fun k hk => ?_⟩
    · rw [Dict.get?_erase_ne _ (hother k hk), Dict.get?_erase_ne _ (hother k hk)]
      exact h.old k hk
    · rw [Dict.get?_erase, Dict.get?_erase, h.new k hk]

/-- An operation about an old record has a prior the late consumer does not hold. -/
theorem Joined.applyOp_old (h : Joined was m a) (hm : applyOp op m = .ok () m')
    (hold : was op.oid ≠ none) : ∃ e a', applyOp op a = .error e a' := by
  cases hrun : applyOp op a with
  | error e a' => exact ⟨e, a', rfl⟩
  | ok u a' =>
      exfalso
      have hprior := (applyOp_ok_iff.mp hm).2.1
      have hprior' := (applyOp_ok_iff.mp hrun).2.1
      rcases h.old op.oid hold with ⟨hheld, hnone⟩
      rw [hprior, hheld, hnone] at hprior'
      exact hold hprior'

theorem Joined.applyOps (ops : List DeltaOp) : ∀ {m a : Applier}, Joined was m a →
    ops.forM applyOp m = .ok () m' →
      ((∀ op ∈ ops, was op.oid = none) →
        ∃ a', ops.forM applyOp a = .ok () a' ∧ Joined was m' a') ∧
      ((∃ op ∈ ops, was op.oid ≠ none) → ∃ e a', ops.forM applyOp a = .error e a') := by
  induction ops with
  | nil =>
      intro m a h hm
      cases hm
      exact ⟨fun _ => ⟨a, rfl, h⟩, fun hold => by rcases hold with ⟨op, hop, -⟩; cases hop⟩
  | cons op ops ih =>
      intro m a h hm
      rw [forM_cons_run] at hm ⊢
      rcases bind_ok_iff.mp hm with ⟨_, m₁, hone, hrest⟩
      by_cases hnew : was op.oid = none
      · rcases h.applyOp_new hone hnew with ⟨a₁, hrun, h₁⟩
        rw [bind_run_ok hrun]
        rcases ih h₁ hrest with ⟨hall, hsome⟩
        refine ⟨fun hops => hall fun op' hop => hops op' (List.mem_cons_of_mem op hop), ?_⟩
        rintro ⟨op', hop, hold⟩
        rcases List.mem_cons.mp hop with rfl | hop
        · exact absurd hnew hold
        · exact hsome ⟨op', hop, hold⟩
      · rcases h.applyOp_old hone hnew with ⟨e, a', hrun⟩
        rw [bind_run_error hrun]
        exact ⟨fun hops => absurd (hops op List.mem_cons_self) hnew, fun _ => ⟨e, a', rfl⟩⟩

/-- A delta that is due is applied by the late consumer if it is about new records only. -/
theorem Joined.apply (h : Joined was m a) (hm : apply d m = .ok true m') :
    ((∀ op ∈ d.ops, was op.oid = none) →
      ∃ a', Applier.apply d a = .ok true a' ∧ Joined was m' a') ∧
    ((∃ op ∈ d.ops, was op.oid ≠ none) → ∃ e a', Applier.apply d a = .error e a') := by
  rcases apply_ok hm with ⟨hheader, htid, t, hrun, rfl⟩
  have hlearnt : Joined was (learn d.types m) (learn d.types a) := by
    refine ⟨h.watermark, fun cid => ?_, h.old, h.new⟩
    rw [Bool.eq_iff_iff, contains_learn, contains_learn, h.types]
  have hstart : Applier.apply d a = (d.ops.forM applyOp >>= fun _ =>
      modify (fun a => { a with rootOid := d.rootOid, watermark := d.tid }) >>= fun _ =>
        pure true) (learn d.types a) := by
    have hahead : ¬d.tid ≤ a.watermark := by
      rw [h.watermark]
      omega
    have hnext : ¬d.tid ≠ a.watermark + 1 := by
      rw [h.watermark]
      exact not_not_intro htid
    unfold Applier.apply
    rw [bind_run_ok (ofExcept_run_ok hheader a), bind_run_ok (get_run a), if_neg hahead,
      if_neg hnext]
    rfl
  rw [hstart]
  rcases hlearnt.applyOps d.ops hrun with ⟨hall, hsome⟩
  constructor
  · intro hops
    rcases hall hops with ⟨a', hok, h'⟩
    rw [bind_run_ok hok]
    exact ⟨{ a' with rootOid := d.rootOid, watermark := d.tid }, rfl, rfl, h'.types, h'.old, h'.new⟩
  · intro hold
    rcases hsome hold with ⟨e, a', herr⟩
    exact ⟨e, a', bind_run_error herr⟩

/-- A consumer that joined late can follow if and only if nothing is about a record of
    before. -/
theorem replay_partial_iff (ds : List Delta) : ∀ {m a : Applier}, Joined was m a →
    Takes m ds m' → ((∃ a', replay ds a = .ok () a') ↔
      ∀ d ∈ ds, ∀ op ∈ d.ops, was op.oid = none) := by
  induction ds with
  | nil => exact fun _ _ => ⟨fun _ d hd => absurd hd List.not_mem_nil, fun _ => ⟨_, rfl⟩⟩
  | cons d ds ih =>
      intro m a h hm
      rcases hm with ⟨m₁, hone, hrest⟩
      rcases h.apply hone with ⟨hall, hsome⟩
      unfold replay
      rw [forM_cons_run, bind_run]
      by_cases hnew : ∀ op ∈ d.ops, was op.oid = none
      · rcases hall hnew with ⟨a₁, hrun, h₁⟩
        have hstep : (do
            let _ ← Applier.apply d
            pure () : EStateM DeltaErr Applier Unit) a = .ok () a₁ := bind_run_ok hrun
        rw [hstep, List.forall_mem_cons]
        exact (ih h₁ hrest).trans ⟨fun hds => ⟨hnew, hds⟩, fun hboth => hboth.2⟩
      · have hold : ∃ op ∈ d.ops, was op.oid ≠ none := by
          by_contra hno
          exact hnew fun op hop => by_contra fun hne => hno ⟨op, hop, hne⟩
        rcases hsome hold with ⟨e, a', herr⟩
        have hstep : (do
            let _ ← Applier.apply d
            pure () : EStateM DeltaErr Applier Unit) a = .error e a' := bind_run_error herr
        rw [hstep]
        constructor
        · rintro ⟨a'', ha⟩
          cases ha
        · exact fun hds => absurd (hds d List.mem_cons_self) hnew

end Applier

/-- What the digest of a replayed state is taken of: shapes and records by their ids. -/
structure Digest where
  watermark : Nat
  rootOid : Option Nat
  types : List TypeRow
  objects : List (Nat × Payload)

/-- The digest of a state. -/
def Applier.stateDigest (a : Applier) : Digest where
  watermark := a.watermark
  rootOid := a.rootOid
  types := a.types.entries.mergeSort fun x y => x.1 ≤ y.1
  objects := a.objects.entries.mergeSort fun x y => x.1 ≤ y.1

namespace DeltaLog

/-- The consumer a replay starts with: at the transaction the log joined at, with the
    shapes known by then. -/
def genesisApplier (l : DeltaLog) : Applier :=
  Applier.learn l.genesisTypes { watermark := l.genesisTid }

/-- Replay the log from its start. -/
def replayedState (c : DeltaCodec) (w : LogWorld) : Except LogErr Digest := do
  let ds ← replay c w.log.genesisTid w
  match Applier.replay ds w.log.genesisApplier with
  | .ok _ a => .ok a.stateDigest
  | .error e _ => .error (.delta e)

end DeltaLog

/-- What is done to a log besides handing it deltas. -/
inductive Upkeep
  | flush
  | reopen (params : LogParams)
  | crash (during : Option FileStep) (wreck : Nat → Option Bytes) (kept : Bool) (params : LogParams)

/-- Upkeep as an event of the log. -/
def Upkeep.event : Upkeep → LogEvent
  | .flush => .op .flush none
  | .reopen params => .reopen params
  | .crash during wreck kept params =>
    .crash (during.map fun step => (.flush, some step)) wreck kept params

/-- A store with a log attached to it, or detached from it. -/
structure Recorded where
  world : World
  log : LogRun
  attached : Bool
  /-- The deltas the log was handed. -/
  handed : List Delta := []

/-- An event of the store, or upkeep of the log. -/
inductive RecordedEvent
  | store (e : Event)
  | log (u : Upkeep)

namespace Recorded

variable (c : DeltaCodec)

/-- The world with its store as a commit left it. -/
def withStore (s : Store) (r : Recorded) : Recorded := { r with world := { r.world with store := s } }

/-- Hand a delta to the log. A log that does not advance is detached. -/
def deliver (d : Delta) (r : Recorded) : Recorded :=
  let log := r.log.act c (.apply d) none
  { r with log := log, attached := log.world.log.applied = d.tid, handed := r.handed ++ [d] }

/-- A commit, watched or not. -/
def commit (p : Principal) (fault : Bool) (r : Recorded) : Recorded :=
  if r.attached then
    match Store.commitWatched r.world.types p fault r.world.store with
    | .ok (some (_, delta)) s => (r.withStore s).deliver c delta
    | res => r.withStore (finalState res)
  else { r with world := r.world.step (.act p (.commit fault)) }

/-- Attach the log, which needs equal watermarks. -/
def attach (r : Recorded) : Recorded :=
  { r with attached := r.log.world.log.applied = r.world.store.lastTid }

def step (r : Recorded) : RecordedEvent → Recorded
  | .store (.act p (.commit fault)) => r.commit c p fault
  | .store (.act p op) => { r with world := r.world.step (.act p op) }
  | .store (.closeAndOpen types) => { r with world := r.world.step (.closeAndOpen types) }.attach
  | .store (.crashAndOpen types) => { r with world := r.world.step (.crashAndOpen types) }.attach
  | .log .flush => { r with log := r.log.step c Upkeep.flush.event }
  | .log u => { r with log := r.log.step c u.event }.attach

/-- A recorded store after some events. -/
def run (r : Recorded) (events : List RecordedEvent) : Recorded := events.foldl (step c) r

/-- A new store with a new log. -/
def fresh (types : Types) (params : LogParams) : Recorded where
  world := World.start types
  log := LogRun.start params none
  attached := true

/-- A log that joins a store at a snapshot of what is stored. -/
def join (params : LogParams) (w : World) : Recorded :=
  Recorded.attach
    { world := w
      log := LogRun.start params (some (w.store.backend.marks.nextTid - 1, w.store.backend.types))
      attached := false }

end Recorded

namespace Store

variable {types : Types} {p : Principal} {kind : Nat → String} {s t u : Store} {fault : Bool}

/-- A store and its storage count the same transactions, so the next delta is the
    one a consumer waits for. -/
def Even (s : Store) : Prop :=
  s.alloc.nextTid = s.backend.marks.nextTid ∧ 0 < s.alloc.nextTid

/-- A commit that stores nothing leaves the counter and storage as they were. -/
theorem refused_even (hends : Ends types p true s u) (hc : Coherent kind s) :
    u.alloc.nextTid = s.alloc.nextTid ∧ u.backend = s.backend := by
  refine ⟨?_, refused_backend hends⟩
  rcases hends with hprep | ⟨s₁, m, out, t, hcap, rfl⟩
  · exact nextTid_of_prepares hprep
  · rcases rollback_spec types (s₁.refEntries types) out (hcap.coherent hc) with
      ⟨_, _, _, _, _, heq, -⟩
    rw [if_pos rfl, captured, heq]
    change t.alloc.nextTid = s.alloc.nextTid
    exact nextTid_of_prepares hcap.prepares

/-- A commit leaves the counter and storage as they were, or both a transaction ahead. -/
theorem ends_even (hends : Ends types p fault s u) (hc : Coherent kind s) (h : Even s) :
    Even u ∧ ((u.alloc.nextTid = s.alloc.nextTid ∧ u.backend = s.backend) ∨
      s.alloc.nextTid < u.alloc.nextTid) := by
  have hsame : u.alloc.nextTid = s.alloc.nextTid ∧ u.backend = s.backend →
      Even u ∧ ((u.alloc.nextTid = s.alloc.nextTid ∧ u.backend = s.backend) ∨
        s.alloc.nextTid < u.alloc.nextTid) := by
    intro hboth
    refine ⟨?_, Or.inl hboth⟩
    unfold Even
    rw [hboth.1, hboth.2]
    exact h
  cases fault with
  | true => exact hsame (refused_even hends hc)
  | false =>
      rcases hends with hprep | ⟨s₁, m, out, t, hcap, rfl⟩
      · exact hsame ⟨nextTid_of_prepares hprep, backend_of_prepares hprep⟩
      · have ht := nextTid_of_prepares hcap.prepares
        have hcounters := finalize_counters types s₁ t out
        rw [if_neg Bool.false_ne_true]
        refine ⟨⟨hcounters.1.trans hcounters.2.1.symm, ?_⟩, Or.inr ?_⟩
        · rw [hcounters.1]
          omega
        · rw [hcounters.1]
          omega

end Store

/-- Events that are not commits leave the counter and storage as they were. -/
theorem World.step_even {w : World} {e : Event} (he : ∀ p fault, e ≠ .act p (.commit fault))
    (h : w.store.Even) : (w.step e).store.alloc.nextTid = w.store.alloc.nextTid ∧
      (w.step e).store.backend = w.store.backend := by
  cases e with
  | closeAndOpen types => exact ⟨h.1.symm, rfl⟩
  | crashAndOpen types => exact ⟨h.1.symm, rfl⟩
  | act p op =>
      rcases op.kinds with hop | ⟨fault, rfl⟩ | rfl
      · have hprep := Relation.ReflTransGen.mono
          (fun _ _ he => (Or.inl he : Prepares w.types p _ _)) _ _
          (moves_op w.types p op hop w.store)
        exact ⟨nextTid_of_prepares hprep, backend_of_prepares hprep⟩
      · exact absurd rfl (he p fault)
      · refine ⟨?_, backend_discard w.store⟩
        change w.store.discard.backend.marks.nextTid = _
        rw [backend_discard]
        exact h.1.symm

/-- In every run of a watched store the counters agree. -/
theorem Watched.run_even (types : Types) (attached : Bool) (events : List Event) :
    ((Watched.begin types attached).run events).world.store.Even := by
  induction events using List.reverseRecOn with
  | nil => exact ⟨rfl, Nat.one_pos⟩
  | append_singleton events e ih =>
      rcases Watched.run_coherent types attached events with ⟨kind, hc⟩
      rw [Watched.run, List.foldl_append]
      change (((Watched.begin types attached).run events).step e).world.store.Even
      rcases Watched.step_world ((Watched.begin types attached).run events) e with
        ⟨p, fault, -, u, hends, hworld⟩ | ⟨he, hworld⟩
      · rw [hworld]
        exact (ends_even hends hc.store ih).1
      · rw [hworld]
        rcases World.step_even he ih with ⟨hnext, hb⟩
        unfold Store.Even
        rw [hnext, hb]
        exact ih

/-- The consumer that holds what a storage holds. -/
def Backend.mirror (b : Backend) : Applier where
  objects := b.objects.mapVal fun _ rec => rec.payload
  types := b.types.foldl (fun types row => types.set row.1 row.2) Dict.empty
  rootOid := b.marks.rootOid
  watermark := b.marks.nextTid - 1

theorem Backend.mirror_knows (b : Backend) : b.mirror.Knows b := by
  refine ⟨fun k => Dict.get?_mapVal _ _ _, fun row hrow => ?_⟩
  refine (Dict.contains_iff _ _).mpr ?_
  unfold Backend.mirror
  rw [Dict.mem_keys_foldl_set]
  exact Or.inr (List.mem_map_of_mem hrow)

/-- A log joins beside the mirror of storage. -/
theorem Backend.mirror_joined (b : Backend) (l : DeltaLog)
    (htid : l.genesisTid = b.marks.nextTid - 1) (htypes : l.genesisTypes = b.types) :
    Applier.Joined b.payloadAt b.mirror l.genesisApplier := by
  refine ⟨htid, fun cid => ?_, fun k _ => ⟨b.mirror_knows.objects k, rfl⟩, fun k hk => ?_⟩
  · unfold DeltaLog.genesisApplier
    rw [htypes]
    rfl
  · rw [b.mirror_knows.objects k, hk]
    rfl

namespace Recorded

variable {c : DeltaCodec} {r : Recorded} {b : Backend}

/-- A store whose log has taken in the deltas since a storage was joined: the log is
    not behind, or its next delta is a gap. -/
structure Sound (c : DeltaCodec) (b : Backend) (r : Recorded) : Prop where
  coherent : ∃ kind, r.world.Coherent kind
  even : r.world.store.Even
  atRest : r.log.AtRest c (b.marks.nextTid - 1) b.types
  mirrored : ∃ m, b.mirror.Takes r.log.taken m ∧
    ((r.world.store.alloc.nextTid = m.watermark + 1 ∧ m.Knows r.world.store.backend) ∨
      m.watermark + 1 < r.world.store.alloc.nextTid)

/-- A log stands at the transaction its deltas end with. -/
theorem applied_eq {genesis : Nat} {types : List TypeRow} {l : LogRun}
    (h : l.AtRest c genesis types) : l.world.log.applied = genesis + l.taken.length := by
  rcases h.ready with ⟨kept, rest, htaken, hready⟩
  rw [hready.sound.applied_length, h.genesisTid, htaken]

/-- The store goes on: the log is as it was, and storage is as it was or ahead. -/
theorem Sound.onward (h : r.Sound c b) {r' : Recorded} (hlog : r'.log = r.log)
    (hcoherent : ∃ kind, r'.world.Coherent kind) (heven : r'.world.store.Even)
    (hahead : (r'.world.store.alloc.nextTid = r.world.store.alloc.nextTid ∧
        r'.world.store.backend = r.world.store.backend) ∨
      r.world.store.alloc.nextTid < r'.world.store.alloc.nextTid) : r'.Sound c b := by
  rcases h.mirrored with ⟨m, hm, hstate⟩
  refine ⟨hcoherent, heven, hlog ▸ h.atRest, m, hlog ▸ hm, ?_⟩
  rcases hahead with ⟨hnext, hb⟩ | hlt
  · rw [hnext, hb]
    exact hstate
  · refine Or.inr ?_
    rcases hstate with ⟨hsame, -⟩ | hbehind
    · omega
    · omega

/-- The deltas up to a transaction stand in front. -/
theorem filter_numbered {start : Nat} {ds : List Delta} (h : Numbered start ds) (n : Nat) :
    ∃ lost, ds = (ds.filter fun d => d.tid ≤ n) ++ lost := by
  by_cases hn : start ≤ n
  · -- the split is after as many deltas as there are transactions up to `n`
    have hsplit : ds.take (n - start) ++ ds.drop (n - start) = ds := List.take_append_drop _ _
    by_cases hlen : n - start ≤ ds.length
    · have hfilter := Numbered.filter (hsplit.symm ▸ h : Numbered start
        (ds.take (n - start) ++ ds.drop (n - start)))
      rw [List.length_take_of_le hlen, hsplit, Nat.add_sub_cancel' hn] at hfilter
      refine ⟨ds.drop (n - start), ?_⟩
      rw [hfilter, hsplit]
    · refine ⟨[], ?_⟩
      rw [List.append_nil, eq_comm, List.filter_eq_self]
      intro d hd
      have htid := (h.mem_tid hd).2
      exact decide_eq_true (by omega)
  · refine ⟨ds, ?_⟩
    have hnone : (ds.filter fun d => d.tid ≤ n) = [] := by
      rw [List.filter_eq_nil_iff]
      intro d hd
      have htid := (h.mem_tid hd).1
      rw [decide_eq_true_eq]
      omega
    rw [hnone, List.nil_append]

theorem taken_opened {genesis : Nat} {l : LogRun} (h : Numbered genesis l.taken)
    (params : LogParams) (disk : LogDisk) : ∃ lost, l.taken = (l.opened params disk).taken ++ lost := by
  unfold LogRun.opened
  cases openLog params disk with
  | ok w => exact filter_numbered h _
  | error e => exact ⟨[], (List.append_nil _).symm⟩

/-- Upkeep of the log loses deltas at most. -/
theorem taken_upkeep {genesis : Nat} {l : LogRun} (h : Numbered genesis l.taken) (u : Upkeep) :
    ∃ lost, l.taken = (l.step c u.event).taken ++ lost := by
  cases u with
  | flush =>
      refine ⟨[], ?_⟩
      change l.taken = (l.taken ++ []) ++ []
      rw [List.append_nil, List.append_nil]
  | reopen params => exact taken_opened h params _
  | crash during wreck kept params =>
      cases during with
      | none => exact taken_opened h params _
      | some step =>
          -- The flush that was cut off has taken nothing in.
          have htaken : (l.act c .flush (some step)).taken = l.taken := List.append_nil _
          have hopened := taken_opened (l := l.act c .flush (some step)) (htaken.symm ▸ h) params
            ((l.act c .flush (some step)).world.disk.crash wreck kept)
          rw [htaken] at hopened
          exact hopened

theorem Sound.upkeep (h : r.Sound c b) (u : Upkeep) :
    Sound c b { r with log := r.log.step c u.event } := by
  rcases taken_upkeep (c := c) h.atRest.history.numbered u with ⟨lost, hlost⟩
  rcases h.mirrored with ⟨m, hm, hstate⟩
  have hrest : (r.log.step c u.event).AtRest c (b.marks.nextTid - 1) b.types := by
    cases u with
    | flush => exact h.atRest.step _ rfl fun d hd => absurd hd List.not_mem_nil
    | reopen params => exact h.atRest.step _ trivial fun d hd => absurd hd List.not_mem_nil
    | crash during wreck kept params =>
        refine h.atRest.step _ trivial fun d hd => ?_
        cases during with
        | none => exact absurd hd List.not_mem_nil
        | some step => exact absurd hd List.not_mem_nil
  rw [hlost] at hm
  cases lost with
  | nil =>
      rw [List.append_nil] at hm
      exact ⟨h.coherent, h.even, hrest, m, hm, hstate⟩
  | cons d lost =>
      -- A log that has lost a delta is behind.
      rcases hm.left with ⟨m', hm'⟩
      refine ⟨h.coherent, h.even, hrest, m', hm', Or.inr ?_⟩
      have hlen := hm.watermark
      have hlen' := hm'.watermark
      rw [List.length_append, List.length_cons] at hlen
      change m'.watermark + 1 < r.world.store.alloc.nextTid
      rcases hstate with ⟨hsame, -⟩ | hbehind
      · omega
      · omega

/-- The log takes the next delta of a store in and refuses every other. -/
theorem taken_deliver {d : Delta} (hheader : checkDeltaHeader d = .ok ())
    (hops : ∀ op ∈ d.ops, op.kind ≠ .other) :
    (r.deliver c d).log.taken =
      r.log.taken ++ if d.tid = r.log.world.log.applied + 1 then [d] else [] := by
  change r.log.taken ++ (if r.log.world.log.accepts d then [d] else []) = _
  by_cases htid : d.tid = r.log.world.log.applied + 1
  · have hyes : r.log.world.log.accepts d = true := decide_eq_true ⟨hheader, htid, hops⟩
    rw [if_pos htid, if_pos hyes]
  · have hno : ¬r.log.world.log.accepts d = true := by
      unfold DeltaLog.accepts
      rw [decide_eq_true_eq]
      exact fun hall => htid hall.2.1
    rw [if_neg htid, if_neg hno]

theorem deltaOf_kinds (p : Principal) (t : Store) (out : EncodedBatch)
    (priors : Dict Nat Payload × List (Nat × Nat × Payload)) :
    ∀ op ∈ (t.deltaOf p out priors).ops, op.kind ≠ .other := by
  intro op hop
  rcases List.mem_append.mp hop with hwrite | hdelete
  · rcases List.mem_map.mp hwrite with ⟨rec, -, rfl⟩
    exact nofun
  · rcases List.mem_map.mp hdelete with ⟨d, -, rfl⟩
    exact nofun

theorem Sound.commit (h : r.Sound c b) (p : Principal) (fault : Bool)
    (hcarries : ∀ d ∈ (r.commit c p fault).handed, c.Carries d) : (r.commit c p fault).Sound c b := by
  rcases h.coherent with ⟨kind, hc⟩
  unfold Recorded.commit at hcarries ⊢
  by_cases hatt : r.attached = true
  · rw [if_pos hatt] at hcarries ⊢
    rcases commitWatched_outcome r.world.types p fault r.world.store with ⟨hno, hends⟩ |
      ⟨s₁, m, out, t, priors, rfl, hcap, hpriors, ⟨tid, u, hp3, hrun⟩ | ⟨e, u, hp3, hrun⟩⟩
    · -- nothing is stored
      have heven := ends_even hends hc.store h.even
      have hsame := refused_even hends hc.store
      split
      · rename_i heq
        exact absurd heq (hno _ _)
      · exact h.onward rfl (World.coherent_of_ends hc hends) heven.1 (Or.inl hsame)
    -- Stored, and handed to the log; P3 has completed or not.
    · rw [hrun] at hcarries ⊢
      dsimp only at hcarries ⊢
      have hends : Ends r.world.types p false r.world.store u := by
        refine Or.inr ⟨s₁, m, out, t, hcap, ?_⟩
        rw [if_neg Bool.false_ne_true, hp3]
        rfl
      have heven := ends_even hends hc.store h.even
      have hnext : t.alloc.nextTid = r.world.store.alloc.nextTid := nextTid_of_prepares hcap.prepares
      have hb : t.backend = r.world.store.backend := backend_of_prepares hcap.prepares
      have hu : u.alloc.nextTid = t.alloc.nextTid + 1 ∧
          u.backend = t.backend.apply (t.buildBatch out) := by
        have hcounters := finalize_counters r.world.types s₁ t out
        rw [hp3] at hcounters
        refine ⟨hcounters.1, ?_⟩
        have hback := backend_finalize r.world.types s₁ t out
        rw [hp3] at hback
        exact hback
      have hcoherent : ∃ kind, ((r.withStore u).deliver c (t.deltaOf p out priors)).world.Coherent
          kind := World.coherent_of_ends hc hends
      have htaken := taken_deliver (c := c) (r := r.withStore u) (d := t.deltaOf p out priors) rfl
        (deltaOf_kinds p t out priors)
      have hrest := (h.atRest.act (.apply (t.deltaOf p out priors)) (fun d hd => ?_) none).2.2 rfl
      · rcases h.mirrored with ⟨m, hm, hstate⟩
        have happlied : r.log.world.log.applied = m.watermark := by
          rw [applied_eq h.atRest, hm.watermark]
          rfl
        refine ⟨hcoherent, heven.1, hrest, ?_⟩
        rcases hstate with ⟨hlock, hknows⟩ | hbehind
        · -- the log takes the delta in
          have hwm : m.watermark + 1 = t.alloc.nextTid := by omega
          rcases apply_known (p := p) (hcap.coherent hc.store) (hcap.batchOk hc.store) hpriors
            (hb ▸ hknows) hwm with ⟨happly, hknown⟩
          have htid : (t.deltaOf p out priors).tid = r.log.world.log.applied + 1 := by
            rw [happlied, hwm]
            rfl
          refine ⟨appliedTo t out priors m, ?_, Or.inl ⟨hu.1, ?_⟩⟩
          · rw [htaken]
            change b.mirror.Takes (r.log.taken ++ if _ = r.log.world.log.applied + 1 then _ else _) _
            rw [if_pos htid]
            exact hm.snoc happly
          · change (appliedTo t out priors m).Knows u.backend
            rw [hu.2]
            exact hknown
        · -- a gap to a log that is behind
          have htid : ¬(t.deltaOf p out priors).tid = r.log.world.log.applied + 1 := by
            change ¬t.alloc.nextTid = _
            omega
          refine ⟨m, ?_, Or.inr ?_⟩
          · rw [htaken]
            change b.mirror.Takes (r.log.taken ++ if _ = r.log.world.log.applied + 1 then _ else _) _
            rw [if_neg htid, List.append_nil]
            exact hm
          · change m.watermark + 1 < u.alloc.nextTid
            omega
      · rw [List.mem_singleton.mp hd]
        exact hcarries _ (List.mem_append_right _ List.mem_cons_self)
    -- P3 has raised, so no delta was handed out: the log is behind from here on.
    · have hends : Ends r.world.types p false r.world.store u := by
        refine Or.inr ⟨s₁, m, out, t, hcap, ?_⟩
        rw [if_neg Bool.false_ne_true, hp3]
        rfl
      have heven := ends_even hends hc.store h.even
      rw [hrun]
      exact h.onward rfl (World.coherent_of_ends hc hends) heven.1 heven.2
  -- Nothing is attached, so the log sees nothing of it.
  · rw [if_neg hatt]
    have hstore : (r.world.step (.act p (.commit fault))).store =
        finalState (Store.commit r.world.types p fault r.world.store) := by
      rw [World.step, Op.run, finalState_effect]
    have heven := ends_even (Store.commit_cases r.world.types p fault r.world.store) hc.store h.even
    rw [← hstore] at heven
    rcases World.step_coherent hc (.act p (.commit fault)) with ⟨kind', hc', -⟩
    exact h.onward rfl ⟨kind', hc'⟩ heven.1 heven.2

theorem Sound.attach (h : r.Sound c b) : r.attach.Sound c b :=
  ⟨h.coherent, h.even, h.atRest, h.mirrored⟩

theorem Sound.step (h : r.Sound c b) (e : RecordedEvent)
    (hcarries : ∀ d ∈ (r.step c e).handed, c.Carries d) : (r.step c e).Sound c b := by
  have hworld : ∀ e : Event, (∀ p fault, e ≠ .act p (.commit fault)) →
      Sound c b { r with world := r.world.step e } := by
    intro e he
    rcases h.coherent with ⟨kind, hc⟩
    rcases World.step_even he h.even with ⟨hnext, hb⟩
    rcases World.step_coherent hc e with ⟨kind', hc', -⟩
    refine h.onward rfl ⟨kind', hc'⟩ ?_ (Or.inl ⟨hnext, hb⟩)
    change (r.world.step e).store.Even
    unfold Store.Even
    rw [hnext, hb]
    exact h.even
  cases e with
  | log u =>
      cases u with
      | flush => exact h.upkeep .flush
      | reopen params => exact (h.upkeep (.reopen params)).attach
      | crash during wreck kept params => exact (h.upkeep (.crash during wreck kept params)).attach
  | store e =>
      cases e with
      | closeAndOpen types => exact (hworld (.closeAndOpen types) nofun).attach
      | crashAndOpen types => exact (hworld (.crashAndOpen types) nofun).attach
      | act p op =>
          cases op with
          | commit fault => exact h.commit p fault hcarries
          | _ => exact hworld _ nofun

/-- The log has been handed what it was handed before. -/
theorem handed_step (r : Recorded) (e : RecordedEvent) : ∀ d ∈ r.handed, d ∈ (r.step c e).handed := by
  intro d hd
  cases e with
  | log u => cases u <;> exact hd
  | store e =>
      cases e with
      | closeAndOpen types => exact hd
      | crashAndOpen types => exact hd
      | act p op =>
          cases op with
          | commit fault =>
              change d ∈ (r.commit c p fault).handed
              unfold Recorded.commit
              split
              · split
                · exact List.mem_append_left _ hd
                · exact hd
              · exact hd
          | _ => exact hd

theorem run_sound (h : r.Sound c b) (events : List RecordedEvent)
    (hcarries : ∀ d ∈ (r.run c events).handed, c.Carries d) : (r.run c events).Sound c b := by
  induction events using List.reverseRecOn with
  | nil => exact h
  | append_singleton events e ih =>
      unfold run at hcarries ⊢
      rw [List.foldl_append] at hcarries ⊢
      exact (ih fun d hd => hcarries d (handed_step _ e d hd)).step e hcarries

theorem fresh_sound (types : Types) (params : LogParams) :
    (fresh types params).Sound c (World.start types).store.backend :=
  ⟨⟨fun _ => "", World.start_coherent types _⟩, ⟨rfl, Nat.one_pos⟩,
    start_atRest params none, _, rfl, Or.inl ⟨rfl, Backend.mirror_knows _⟩⟩

theorem join_sound (params : LogParams) {w : World} {kind : Nat → String} (hc : w.Coherent kind)
    (h : w.store.Even) : (join params w).Sound c w.store.backend := by
  have hrest := start_atRest (c := c) params
    (some (w.store.backend.marks.nextTid - 1, w.store.backend.types))
  refine ⟨⟨kind, hc⟩, h, hrest, _, rfl, Or.inl ⟨?_, Backend.mirror_knows _⟩⟩
  change w.store.alloc.nextTid = w.store.backend.marks.nextTid - 1 + 1
  have heven := h.1
  have hpos := h.2
  omega

/-- A replay of the log comes to an end if and only if no delta it has is about a record
    that was there when it joined. -/
theorem Sound.replays_iff (h : r.Sound c b) :
    (∃ g, DeltaLog.replayedState c r.log.world = .ok g) ↔
      ∀ d ∈ r.log.taken, ∀ op ∈ d.ops, b.objects.get? op.oid = none := by
  rcases h.mirrored with ⟨m, hm, -⟩
  rcases h.atRest.ready with ⟨kept, rest, htaken, hready⟩
  have hreplay : DeltaLog.replay c r.log.world.log.genesisTid r.log.world = .ok r.log.taken := by
    rw [hready.replay (htaken ▸ h.atRest.history) _, ← htaken, List.filter_eq_self.mpr]
    intro d hd
    rw [h.atRest.genesisTid]
    exact decide_eq_true (h.atRest.history.numbered.mem_tid hd).1
  have hjoined := b.mirror_joined r.log.world.log h.atRest.genesisTid h.atRest.genesisTypes
  have hiff := Applier.replay_partial_iff r.log.taken hjoined hm
  have hpay : ∀ k, b.payloadAt k = none ↔ b.objects.get? k = none := fun k =>
    Option.map_eq_none_iff
  simp only [hpay] at hiff
  rw [← hiff]
  unfold DeltaLog.replayedState
  rw [hreplay]
  change (∃ g, (match Applier.replay r.log.taken r.log.world.log.genesisApplier with
    | .ok _ a => .ok a.stateDigest
    | .error e _ => .error (.delta e) : Except LogErr Digest) = .ok g) ↔ _
  cases Applier.replay r.log.taken r.log.world.log.genesisApplier with
  | ok u a => exact ⟨fun _ => ⟨a, rfl⟩, fun _ => ⟨a.stateDigest, rfl⟩⟩
  | error e a =>
      constructor
      · rintro ⟨g, hg⟩
        cases hg
      · rintro ⟨a', ha⟩
        cases ha

end Recorded

/-- A map that is read back from its bytes. -/
def MapCodec.Carries (mc : MapCodec) (delta : List (Item × Item)) : Prop :=
  ∀ raw, mc.encode delta = .ok raw → mc.decode raw = .ok delta

open Recorded
open ReferenceApplier (firstDelta upsertItem)

/-- A map that a log refuses leaves no trace. One that it takes in is never refused for
    its shape by an applier, if its operations are well shaped, nor raises a `TypeError` there
    if its rows and ids can be unpacked. And a log that has
    taken in what a store announced is replayed to its end: always if it was there
    from the start, and if it joined late as long as no delta is about a record of
    before. -/
theorem log_replayable (mc : MapCodec) (c : DeltaCodec) (params : LogParams) (types : Types) :
    (∀ fault delta w err w', DeltaLog.applyMap mc fault delta w = .error (.refused err) w' → w' = w) ∧
    (∀ (delta : List (Item × Item)) (l l' : DeltaLog), mc.Carries delta →
      l.intake mc delta = .ok (some l') →
      (∀ ops, (field "ops" delta).iter = some ops → ∀ op ∈ ops, WellShaped op) →
      ∃ raw again, l'.buffer = l.buffer ++ [(l'.applied, raw)] ∧ mc.decode raw = .ok again ∧
        ∀ a err b, ReferenceApplier.apply again a = .error err b →
          ¬err.OfShape ∧ (Unpacks delta → err ≠ .malformed)) ∧
    (∀ events, let r := (fresh types params).run c events
      (∀ d ∈ r.handed, c.Carries d) → ∃ g, DeltaLog.replayedState c r.log.world = .ok g) ∧
    ∀ attached before events, let w := ((Watched.begin types attached).run before).world
      let r := (join params w).run c events
      (∀ d ∈ r.handed, c.Carries d) → ((∃ g, DeltaLog.replayedState c r.log.world = .ok g) ↔
        ∀ d ∈ r.log.taken, ∀ op ∈ d.ops, w.store.backend.objects.get? op.oid = none) := by
  refine ⟨fun _ _ _ _ _ h => DeltaLog.applyMap_refused h, fun delta l l' hmc hintake hops => ?_,
    fun events hcarries => ?_, fun attached before events hcarries => ?_⟩
  · rcases DeltaLog.intake_ok hintake with ⟨tid, ops, raw, -, -, -, hraw, rfl⟩
    exact ⟨raw, delta, rfl, hmc raw hraw, fun a err b hrun => DeltaLog.intake_shaped hintake hops hrun⟩
  · have hsound := run_sound (fresh_sound (c := c) types params) events hcarries
    exact hsound.replays_iff.mpr fun _ _ _ _ => rfl
  · rcases Watched.run_coherent types attached before with ⟨kind, hc⟩
    exact (run_sound (join_sound params hc (Watched.run_even types attached before)) events
      hcarries).replays_iff

/-- A codec that knows some deltas, each by its place. -/
def listCodec (ds : List Delta) : DeltaCodec where
  encode d := [UInt8.ofNat (ds.idxOf d)]
  decode
    | [b] => match ds[b.toNat]? with
      | some d => .ok d
      | none => .error .malformed
    | _ => .error .malformed

theorem listCodec_carries {ds : List Delta} (hlen : ds.length ≤ 256) {d : Delta} (hd : d ∈ ds) :
    (listCodec ds).Carries d := by
  have hidx : ds.idxOf d < ds.length := List.idxOf_lt_length_of_mem hd
  have hbyte : (UInt8.ofNat (ds.idxOf d)).toNat = ds.idxOf d := by
    rw [UInt8.toNat_ofNat']
    omega
  refine ⟨?_, ?_⟩
  · unfold listCodec
    dsimp only
    rw [hbyte, List.getElem?_eq_getElem hidx, List.getElem_idxOf hidx]
  · unfold listCodec prefixSize
    dsimp only [List.length_singleton]
    omega

/-- A codec for one map. -/
def oneMap (delta : List (Item × Item)) : MapCodec := ⟨fun _ => .ok [0], fun _ => .ok delta⟩

/-- A store with one part, joined by a log. -/
def joinedParts (c : DeltaCodec) (events : List Event) : Recorded :=
  (Recorded.join {} ((Watched.begin Watched.partTypes false).run Watched.numberedPart).world).run c
    (events.map .store)

/-- What a log that has joined the parts is handed. -/
def partDeltas (events : List Event) : DeltaCodec := listCodec (joinedParts plainCodec events).handed

/-- Another part is committed. -/
def anotherPart : List Event :=
  [.act Watched.partOwner (.construct "part" [("code", .int 2)]), .act Watched.partOwner (.store 1),
    .act Watched.partOwner (.commit false)]

/-- The part that was there is committed again. -/
def changedPart : List Event :=
  [.act Watched.partOwner (.setField 0 "code" (.int 3)), .act Watched.partOwner (.commit false)]

/-- A first delta with a well shaped operation is taken in, and a log that joined late
    is replayed if the next commit is of another part. -/
theorem log_replayable_on_parts :
    let c := partDeltas anotherPart
    (∃ l' raw, ({} : DeltaLog).intake (oneMap (firstDelta [upsertItem 1 1 [7]]))
      (firstDelta [upsertItem 1 1 [7]]) = .ok (some l') ∧ l'.buffer = [(1, raw)]) ∧
    ((joinedParts c anotherPart).log.taken.map Delta.tid = [2]) ∧
    ∃ g, DeltaLog.replayedState c (joinedParts c anotherPart).log.world = .ok g := by
  intro c
  have hall := log_replayable (oneMap (firstDelta [upsertItem 1 1 [7]])) c {} Watched.partTypes
  have hshaped : ∀ ops, (field "ops" (firstDelta [upsertItem 1 1 [7]])).iter = some ops →
      ∀ op ∈ ops, WellShaped op := by
    intro ops hops op hop
    cases hops
    rw [List.mem_singleton.mp hop]
    refine ⟨⟨_, rfl, fun key hkey => ?_⟩, fun _ => ⟨[7], rfl⟩⟩
    have hkeys : key ∈ ["op", "oid", "cid", "payload", "prior"] := hkey
    simp only [List.mem_cons, List.not_mem_nil, or_false] at hkeys
    rcases hkeys with rfl | rfl | rfl | rfl | rfl <;> rfl
  refine ⟨?_, by decide +kernel, ?_⟩
  · rcases hall.2.1 _ {} _ (fun _ _ => rfl) rfl hshaped with ⟨raw, again, hbuffer, -⟩
    exact ⟨_, raw, rfl, hbuffer⟩
  · have hhanded : (joinedParts c anotherPart).handed =
        (joinedParts plainCodec anotherPart).handed := by decide +kernel
    have hlen : (joinedParts plainCodec anotherPart).handed.length ≤ 256 := by decide +kernel
    refine (hall.2.2.2 false Watched.numberedPart (anotherPart.map .store) fun d hd => ?_).mpr
      (by decide +kernel)
    exact listCodec_carries hlen (hhanded ▸ hd)

/-- An operation without its prior is taken in and cannot be replayed, and a log that
    joined late cannot be replayed once the part of before has changed. -/
theorem log_not_replayable :
    (¬∀ (mc : MapCodec) (delta : List (Item × Item)) (l l' : DeltaLog), mc.Carries delta →
      l.intake mc delta = .ok (some l') → ∀ a err b, ReferenceApplier.apply delta a = .error err b →
        ¬err.OfShape) ∧
    ¬∀ c before events, let r := (Recorded.join {}
        ((Watched.begin Watched.partTypes false).run before).world).run c events
      (∀ d ∈ r.handed, c.Carries d) → ∃ g, DeltaLog.replayedState c r.log.world = .ok g := by
  constructor
  · intro h
    have hrun : ∃ b, ReferenceApplier.apply (firstDelta [.map [(.str "op", .str "upsert"),
        (.str "oid", .int 1), (.str "cid", .int 1), (.str "payload", .bin [7])]]) {} =
        .error (.opMissingKey "prior") b := ⟨_, rfl⟩
    rcases hrun with ⟨b, hrun⟩
    exact h (oneMap _) _ {} _ (fun _ _ => rfl) rfl {} _ b hrun trivial
  · intro h
    have hhanded : (joinedParts (partDeltas changedPart) changedPart).handed =
        (joinedParts plainCodec changedPart).handed := by decide +kernel
    have hlen : (joinedParts plainCodec changedPart).handed.length ≤ 256 := by decide +kernel
    rcases h (partDeltas changedPart) Watched.numberedPart (changedPart.map .store) fun d hd =>
      listCodec_carries hlen (hhanded ▸ hd) with ⟨g, hg⟩
    have hraises : (match DeltaLog.replayedState (partDeltas changedPart)
        (joinedParts (partDeltas changedPart) changedPart).log.world with
      | .ok _ => true
      | .error _ => false) = false := by decide +kernel
    have hg' : DeltaLog.replayedState (partDeltas changedPart)
      (joinedParts (partDeltas changedPart) changedPart).log.world = .ok g := hg
    rw [hg'] at hraises
    cases hraises

end DataCrystal
