import DataCrystal.Rebuilt

/-!
# The Type Dictionary

Every record is filed under a shape id, and the type dictionary says what the
shape is: the class, and the names of the fields in the order the payload has
them. A class whose fields change starts a new shape, and the records written
before stay readable through the row of the old one.

A row goes into the dictionary with the first batch that uses its shape. That it
goes in once is a matter of three lists that are kept apart: the rows of storage,
the rows in memory, and the ids that are known to be durable. A commit that is
stored and raises in its third phase does not reach the third list, and the next
batch that uses the shape carries its row again.

## Main definitions

* `Backend.FiledAs`: A record and the row of its shape.
* `Watched.WrittenBy`: The commit that wrote a record.

## Theorems

* `stored_filedAs`: The records of a batch.
* `type_rows_intact`: The type dictionary after a run.
-/

namespace DataCrystal

open Store

/-- The row of a shape has one name for each value of the record. -/
def Backend.FiledAs (b : Backend) (rec : StoredRecord) (c : String) (names : List String) : Prop :=
  (rec.cid, c, names) ∈ b.types ∧ names.length = rec.payload.length

namespace Store

variable {types : Types} {kind : Nat → String} {t : Store} {out : EncodedBatch}

/-- An encoded entity has one value for each field. -/
theorem EncodedAs.length {s : Store} {o : Nat} {specs : List FieldSpec} {ws : List (Val Token)}
    (h : s.EncodedAs o specs ws) : ws.length = specs.length := (List.Forall₂.length_eq h).symm

/-- A record of a batch is filed under the fields its class has at the commit. -/
theorem stored_filedAs (hc : Coherent kind t) (hb : BatchOk types t t.pending.entries t out)
    {rec : StoredRecord} (hrec : rec ∈ (t.buildBatch out).records) :
    rec.tid = t.alloc.nextTid ∧
      ∃ c, (t.backend.apply (t.buildBatch out)).FiledAs rec c (types.info c).fieldNames := by
  rcases List.mem_map.mp hrec with ⟨r, hr, rfl⟩
  rcases hb.encoded r hr with ⟨o, -, hrow, henc, hshape⟩
  refine ⟨rfl, (t.heap.get o).cls, ?_, ?_⟩
  · -- The row in memory is the one that is stored, or goes along with the batch.
    rcases hshape with hdurable | ⟨row, hnew, hcid⟩
    · rcases hc.storage.durable r.2.1 hdurable with ⟨row, hstored, hcid⟩
      have hsame := hc.storage.rowsUnique row (hc.storage.rowsKnown row hstored) _ hrow hcid
      exact List.mem_append_left _ (hsame ▸ hstored)
    · have hsame := hc.storage.rowsUnique row (hb.newTypes row hnew) _ hrow hcid
      exact List.mem_append_right _ (hsame ▸ hnew)
  · rw [henc.length, TypeInfo.fieldNames, List.length_map]

end Store

namespace Watched

variable {kin : String → String → Kin}

/-- A commit of a run wrote a record, under fields its class had then. The classes
    may have changed since, by a session that declares them anew. -/
def WrittenBy (types : Types) (attached : Bool) (events : List Event) (oid : Nat)
    (rec : StoredRecord) (c : String) (names : List String) : Prop :=
  ∃ before p after, events = before ++ .act p (.commit false) :: after ∧
    names = (((begin types attached).run before).world.types.info c).fieldNames ∧
    rec.tid = ((begin types attached).run before).world.store.backend.marks.nextTid ∧
    (((begin types attached).run before).step (.act p (.commit false))).world.store.backend.objects.get?
      oid = some rec

theorem WrittenBy.later {types : Types} {attached : Bool} {events : List Event} {oid : Nat}
    {rec : StoredRecord} {c : String} {names : List String}
    (h : WrittenBy types attached events oid rec c names) (e : Event) :
    WrittenBy types attached (events ++ [e]) oid rec c names := by
  rcases h with ⟨before, p, after, hevents, hwritten⟩
  refine ⟨before, p, after ++ [e], ?_, hwritten⟩
  rw [hevents, List.append_assoc, List.cons_append]

/-- Only a commit that is stored changes storage, and it adds its rows. -/
theorem step_storage (w : Watched) (e : Event) :
    (w.step e).world.store.backend = w.world.store.backend ∨
      ∃ p s₁ m out t, e = .act p (.commit false) ∧
        Captured w.world.types p w.world.store s₁ m out t ∧
        (w.step e).world.store.backend = t.backend.apply (t.buildBatch out) := by
  rcases step_world w e with ⟨p, fault, rfl, u, hends, hworld⟩ | ⟨hno, hworld⟩
  · rw [hworld]
    cases fault with
    | true => exact Or.inl (refused_backend hends)
    | false =>
        rcases ends_backend hends with hsame | ⟨s₁, m, out, t, hcap, hstored⟩
        · exact Or.inl hsame
        · exact Or.inr ⟨p, s₁, m, out, t, rfl, hcap, hstored⟩
  · rw [hworld]
    rcases World.step_backend w.world e with hsame | ⟨p, s₁, m, out, t, he, -⟩
    · exact Or.inl hsame
    · exact absurd he (hno p false)

/-- In a run that keeps to the kinds every committed record is filed under a
    durable row, with one name for each of its values: the fields its class had in
    the commit that wrote it. No row is written twice, and no shape id is given to
    two rows. -/
theorem type_rows_intact (kin : String → String → Kin) (types : Types) (attached : Bool)
    (events : List Event)
    (hrun : EachStep step (KeepsKinds kin) (begin types attached) events) :
    let b := ((begin types attached).run events).world.store.backend
    (b.types.map Prod.fst).Nodup ∧
      ∀ oid rec, b.objects.get? oid = some rec → ∃ c names, b.FiledAs rec c names ∧
        WrittenBy types attached events oid rec c names := by
  intro b
  refine ⟨(run_inStep types attached events hrun).stored, ?_⟩
  -- By the run, from its end: the last event stores nothing or one batch.
  induction events using List.reverseRecOn with
  | nil => exact fun oid rec hrec => nomatch hrec
  | append_singleton events e ih =>
      rw [eachStep_append] at hrun
      have hold := ih hrun.1
      rcases run_coherent types attached events with ⟨kind, hc⟩
      have hin := run_inStep types attached events hrun.1
      have hsplit : (begin types attached).run (events ++ [e]) =
          ((begin types attached).run events).step e := by
        rw [run, List.foldl_append]
        rfl
      intro oid rec hrec
      change ((begin types attached).run (events ++ [e])).world.store.backend.objects.get? oid =
        some rec at hrec
      have hb : b = (((begin types attached).run events).step e).world.store.backend :=
        congrArg (fun w => w.world.store.backend) hsplit
      rw [hsplit] at hrec
      rw [hb]
      rcases step_storage _ e with hsame | ⟨p, s₁, m, out, t, rfl, hcap, hstored⟩
      · rw [hsame] at hrec ⊢
        rcases hold oid rec hrec with ⟨c, names, hfiled, hwritten⟩
        exact ⟨c, names, hfiled, hwritten.later e⟩
      · have hbackend := backend_of_prepares hcap.prepares
        have htid := (prepared_inStep hcap.prepares hc.store hin).nextTid
        have hafter := hrec
        rw [hstored] at hrec ⊢
        -- A record of the batch is filed by it, and any other is where it was.
        rcases (Backend.get?_apply_eq_some hrec).2 with ⟨hnew, -⟩ | ⟨-, hkept⟩
        · rcases stored_filedAs (hcap.coherent hc.store) (hcap.batchOk hc.store) hnew with
            ⟨hrectid, c, hfiled⟩
          refine ⟨c, _, hfiled, events, p, [], rfl, rfl, ?_, hafter⟩
          rw [hrectid, htid, hbackend]
        · rw [hbackend] at hkept
          rcases hold oid rec hkept with ⟨c, names, hfiled, hwritten⟩
          refine ⟨c, names, ⟨?_, hfiled.2⟩, hwritten.later _⟩
          rw [hbackend]
          exact List.mem_append_left _ hfiled.1

/-- A process with parts, and with notes that have a field of their own. -/
def notedTypes : Types := fun c => if c = "note" then noteTypes c else partTypes c

/-- Parts with numeric codes keep their one row, and each of them is filed under it. -/
theorem type_rows_intact_on_parts :
    let b := ((begin partTypes true).run
      (secondPart (.int 2) ++ [.act partOwner (.commit false)])).world.store.backend
    (b.types.map Prod.fst).Nodup ∧
      ∀ oid rec, b.objects.get? oid = some rec → ∃ c names, b.FiledAs rec c names ∧
        WrittenBy partTypes true (secondPart (.int 2) ++ [.act partOwner (.commit false)])
          oid rec c names := by
  have hrun : EachStep step (KeepsKinds fun _ _ => .family .number) (begin partTypes true)
      (secondPart (.int 2) ++ [.act partOwner (.commit false)]) :=
    ⟨trivial, trivial, by decide +kernel, trivial, trivial, trivial, by decide +kernel, trivial⟩
  exact type_rows_intact (fun _ _ => .family .number) partTypes true _ hrun

/-- A part whose code cannot be compared is stored together with the first note,
    and the commit raises. The next note brings its row along again. -/
theorem type_row_written_twice :
    ((begin notedTypes true).run (secondPart (.scalar (.str "a")) ++
      [.act partOwner (.construct "note" []), .act partOwner (.store 2),
        .act partOwner (.commit false), .act partOwner (.construct "note" []),
        .act partOwner (.store 3), .act partOwner (.commit false)])).world.store.backend.types =
      [(1, "part", ["code"]), (2, "note", ["text"]), (2, "note", ["text"])] := by
  decide +kernel

end Watched

end DataCrystal
