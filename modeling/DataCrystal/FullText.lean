import DataCrystal.Snapshot

/-!
# The Full-Text Index

A consumer that keeps one document of every record with text in it. Which fields of
which classes are indexed is a map the index is created with, derived from the
markers of the classes or given by the program. A document has three columns for
each field of the map: the folded tokens, the stems if the field has a language,
and the text itself.

An attached index reads the text of a record from the payload a delta carries, by
name through the shape of the record, and a field the shape lacks takes the default
its class has in the process that applies the delta. An index that is bootstrapped
reads it from the views of a snapshot. How a text is cut into tokens is a parameter,
`Analyzer`.

A delta is applied in one transaction of the sidecar, so one that raises leaves the
index as it was.

## Main definitions

* `Analyzer`, `FullTextMap`: What an index is created with.
* `FullTextIndex`: The documents, and the shapes and the transaction applied last.
* `FullTextIndex.apply`: Index one delta.
* `FullTextIndex.replay`: Index a stream, each delta in some process.
* `FullTextIndex.bootstrap`: Build the index from a snapshot.

## Theorems

* `doc_eq_iff`: Two documents are equal when the texts are.
-/

namespace DataCrystal

/-- The text of a value, if it is one. -/
def Val.text {ρ : Type} : Val ρ → Option String
  | .scalar (.str t) => some t
  | _ => Option.none

@[simp]
theorem Val.text_freeze (v : Val Token) : v.freeze.text = v.text := by
  cases v with
  | none => rfl
  | scalar s => rfl
  | leaf r => rfl
  | seq kind xs => cases kind <;> rfl
  | dict xs => rfl

/-- How a text is indexed: its tokens, the folded form of a token, and the stems of
    tokens in a language. -/
structure Analyzer where
  tokens : String → List String
  foldToken : String → String
  stem : List String → String → List String

/-- The indexed fields of the indexed classes, each with the language it is stemmed
    in, if any. -/
abbrev FullTextMap := Dict String (Dict String (Option String))

/-- The fields of all classes, which are the columns of the index. -/
def FullTextMap.fields (m : FullTextMap) : List String :=
  (m.values.flatMap Dict.keys).dedup.insertionSort fun f g => f ≤ g

/-- The columns of one field: folded tokens, stems, text. -/
abbrev DocCells := Option String × Option String × Option String

/-- One document. -/
structure DocRow where
  typename : String
  cells : List DocCells
  deriving DecidableEq

/-- The exceptions of the index. -/
inductive FtsErr
  | delta (e : DeltaErr)
  /-- A deletion that does not say what it deletes. -/
  | noPrior (oid : Nat)
  /-- The sidecar has a document of the record already. -/
  | occupied (oid : Nat)
  | snapshot (e : SnapshotErr)

/-- The index: its documents by OID, the shapes it has seen, and the last
    transaction it has applied. -/
structure FullTextIndex where
  fulltext : FullTextMap
  docs : Dict Nat DocRow := Dict.empty
  types : Dict Nat (String × List String) := Dict.empty
  watermark : Nat := 0

namespace FullTextIndex

variable (an : Analyzer)

/-- The texts among some values, of the fields that are wanted. -/
def textsOf (wanted : Dict String (Option String)) (value : String → Option (Val Token)) :
    Dict String String :=
  Dict.ofList (wanted.keys.filterMap fun f => ((value f).bind Val.text).map fun t => (f, t))

/-- The columns of a field. -/
def cellsOf (wanted : Dict String (Option String)) (texts : Dict String String) (f : String) :
    DocCells :=
  match texts.get? f, wanted.get? f with
  | some text, some language =>
    let tokens := an.tokens text
    -- The words as they are written, folded.
    (some (" ".intercalate (tokens.map an.foldToken)),
      -- And their stems, if the field names a language.
      language.map fun l => " ".intercalate ((an.stem tokens l).map an.foldToken), some text)
  | _, _ => (none, none, none)

def docRow (m : FullTextMap) (c : String) (texts : Dict String String) : DocRow where
  typename := c
  cells := m.fields.map (cellsOf an (m.getD c Dict.empty) texts)

/-- Insert the document of a record; without a text there is none. -/
def insertDoc (oid : Nat) (c : String) (texts : Dict String String) (idx : FullTextIndex) :
    Except FtsErr FullTextIndex :=
  if texts.entries.isEmpty then .ok idx
  else if idx.docs.contains oid then .error (.occupied oid)
  else .ok { idx with docs := idx.docs.set oid (docRow an idx.fulltext c texts) }

/-- The value of a field in a payload, or the default of its class. -/
def proseValue (types : Types) (c : String) (persisted : List String) (payload : Payload)
    (f : String) : Option (Val Token) :=
  match (Snapshot.byName persisted payload).get? f with
  | some v => some v
  | none => (types.known c).bind fun ti => ti.default? f

/-- The class of a record and its texts, if the class is indexed. -/
def proseValues (types : Types) (idx : FullTextIndex) (op : DeltaOp) :
    Except FtsErr (Option (String × Dict String String)) :=
  match idx.types.get? op.cid with
  | none => .error (.delta (.unknownCid op.cid))
  | some (c, persisted) =>
    match idx.fulltext.get? c with
    -- A class without a mapping has no documents.
    | none => .ok none
    | some wanted =>
      -- Nor has one whose mapping names no field.
      if wanted.entries.isEmpty then .ok none
      else
        match op.payload with
        | none => .error (.delta (.noPayload op.oid))
        | some payload => .ok (some (c, textsOf wanted (proseValue types c persisted payload)))

def dropDoc (oid : Nat) (idx : FullTextIndex) : FullTextIndex :=
  { idx with docs := idx.docs.erase oid }

/-- Index what a delta says about one record. -/
def applyOp (types : Types) (idx : FullTextIndex) (op : DeltaOp) : Except FtsErr FullTextIndex :=
  match op.kind with
  | .upsert => do
    -- The old document goes with texts to index and without.
    let prose ← proseValues types idx op
    match prose with
    | none => .ok (idx.dropDoc op.oid)
    | some (c, texts) => insertDoc an op.oid c texts (idx.dropDoc op.oid)
  | .delete =>
    -- A delete says what it deletes, though only the id is needed.
    match op.prior with
    | none => .error (.noPrior op.oid)
    | some _ => .ok (idx.dropDoc op.oid)
  | .other => .error (.delta (.unknownOp op.oid))

/-- Take new shapes in. -/
def learn (rows : List TypeRow) (idx : FullTextIndex) : FullTextIndex :=
  { idx with types := rows.foldl (fun types row => types.set row.1 row.2) idx.types }

/-- Index one delta; whether it was new. -/
def apply (types : Types) (idx : FullTextIndex) (d : Delta) : Except FtsErr (Bool × FullTextIndex) :=
  match checkDeltaHeader d with
  | .error e => .error (.delta e)
  | .ok _ =>
    if d.tid ≤ idx.watermark then .ok (false, idx)
    else if d.tid ≠ idx.watermark + 1 then .error (.delta (.gap idx.watermark d.tid))
    -- A failing op leaves the index of before: the transaction is rolled back.
    else do
      let applied ← d.ops.foldlM (applyOp an types) (idx.learn d.types)
      .ok (true, { applied with watermark := d.tid })

/-- Index a stream. A delta may be applied in a later process than the one that made
    it, with other classes: `under` says which, by the transaction. -/
def replay (under : Nat → Types) (m : FullTextMap) (ds : List Delta) :
    Except FtsErr FullTextIndex :=
  ds.foldlM (fun idx d => (apply an (under d.tid) idx d).map Prod.snd) { fulltext := m }

/-- Insert the document of a view. -/
def insertView (c : String) (idx : FullTextIndex) (v : EntityView) : Except FtsErr FullTextIndex :=
  insertDoc an v.oid c (textsOf (idx.fulltext.getD c Dict.empty) v.values.get?) idx

/-- Insert the documents of a class. -/
def bootstrapType (types : Types) (s : Snapshot) (idx : FullTextIndex) (c : String) :
    Except FtsErr FullTextIndex := do
  let views ← (s.all types c).mapError .snapshot
  views.foldlM (insertView an c) idx

/-- Build the index from a snapshot. -/
def bootstrap (types : Types) (m : FullTextMap) (s : Snapshot) : Except FtsErr FullTextIndex := do
  let idx ← m.keys.foldlM (bootstrapType an types s) (learn s.view.types { fulltext := m })
  .ok { idx with watermark := s.tid }

end FullTextIndex

namespace FullTextMap

variable {m : FullTextMap} {c : String} {wanted : Dict String (Option String)}

/-- The fields of every class are columns. -/
theorem mem_fields (h : m.get? c = some wanted) {f : String} (hf : f ∈ wanted.keys) :
    f ∈ m.fields := by
  rw [fields, List.mem_insertionSort, List.mem_dedup, List.mem_flatMap]
  exact ⟨wanted, List.mem_map.mpr ⟨(c, wanted), (Dict.get?_eq_some_iff _ _ _).mp h, rfl⟩, hf⟩

end FullTextMap

namespace FullTextIndex

variable {an : Analyzer} {m : FullTextMap} {c : String} {wanted : Dict String (Option String)}
  {value value' : String → Option (Val Token)} {f : String}

theorem get?_textsOf : (textsOf wanted value).get? f =
    if f ∈ wanted.keys then (value f).bind Val.text else none := by
  ext t
  have hnd : ((wanted.keys.filterMap fun f =>
      ((value f).bind Val.text).map fun t => (f, t)).map Prod.fst).Nodup := by
    rw [List.map_filterMap]
    refine (wanted.nodup_keys).filterMap fun f g k hf hg => ?_
    rw [Option.map_map, Option.mem_def, Option.map_eq_some_iff] at hf hg
    rcases hf with ⟨t, -, rfl⟩
    rcases hg with ⟨u, -, hk⟩
    exact hk.symm
  rw [textsOf, Dict.get?_ofList_of_nodup _ hnd, List.mem_filterMap]
  constructor
  · rintro ⟨g, hg, hsome⟩
    rcases Option.map_eq_some_iff.mp hsome with ⟨u, hu, hpair⟩
    cases hpair
    rw [if_pos hg]
    exact hu
  · intro h
    split at h
    · rename_i hf
      exact ⟨f, hf, by rw [h]; rfl⟩
    · cases h

/-- The document of a record, if it has a text. -/
def doc (an : Analyzer) (m : FullTextMap) (c : String) (texts : Dict String String) :
    Option DocRow :=
  if texts.entries.isEmpty then none else some (docRow an m c texts)

theorem entries_isEmpty_iff {texts : Dict String String} :
    texts.entries.isEmpty = true ↔ ∀ f, texts.get? f = none := by
  rw [List.isEmpty_iff]
  constructor
  · intro h f
    rw [Dict.get?, h]
    rfl
  · intro h
    refine List.eq_nil_iff_forall_not_mem.mpr fun e he => ?_
    have hget := (Dict.get?_eq_some_iff texts e.1 e.2).mpr he
    rw [h] at hget
    cases hget

/-- The text of a field stands in its columns. -/
theorem cellsOf_text (an : Analyzer) (h : wanted.contains f = true) (texts : Dict String String) :
    (cellsOf an wanted texts f).2.2 = texts.get? f := by
  unfold cellsOf
  rcases Option.isSome_iff_exists.mp h with ⟨language, hlanguage⟩
  rw [hlanguage]
  cases texts.get? f <;> rfl

/-- Two documents of a class are equal when the texts of its fields are. -/
theorem doc_eq_iff (h : m.get? c = some wanted) :
    doc an m c (textsOf wanted value) = doc an m c (textsOf wanted value') ↔
      ∀ f ∈ wanted.keys, (value f).bind Val.text = (value' f).bind Val.text := by
  constructor
  · intro hdoc f hf
    have htexts : (textsOf wanted value).get? f = (textsOf wanted value').get? f := by
      unfold doc at hdoc
      by_cases hv : (textsOf wanted value).entries.isEmpty = true
      · by_cases hv' : (textsOf wanted value').entries.isEmpty = true
        · rw [entries_isEmpty_iff.mp hv, entries_isEmpty_iff.mp hv']
        · rw [if_pos hv, if_neg hv'] at hdoc
          cases hdoc
      · by_cases hv' : (textsOf wanted value').entries.isEmpty = true
        · rw [if_neg hv, if_pos hv'] at hdoc
          cases hdoc
        · rw [if_neg hv, if_neg hv', Option.some.injEq] at hdoc
          -- The text itself is one of the columns.
          have hcells := congrArg DocRow.cells hdoc
          have hone := List.map_inj_left.mp hcells f (FullTextMap.mem_fields h hf)
          have hget : m.getD c Dict.empty = wanted := by
            rw [Dict.getD, h]
            rfl
          have hcontains : wanted.contains f = true := (Dict.contains_iff _ _).mpr hf
          rw [hget] at hone
          rw [← cellsOf_text an hcontains, hone, cellsOf_text an hcontains]
    rw [get?_textsOf, get?_textsOf, if_pos hf, if_pos hf] at htexts
    exact htexts
  · intro htexts
    have hsame : textsOf wanted value = textsOf wanted value' := by
      unfold textsOf
      congr 1
      refine List.filterMap_congr fun f hf => ?_
      rw [htexts f hf]
    rw [hsame]

end FullTextIndex

end DataCrystal
