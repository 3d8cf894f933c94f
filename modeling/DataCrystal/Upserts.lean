import DataCrystal.RoundTrip
import DataCrystal.Writes

/-!
# What an Upsert Writes

An upsert merges a fresh instance into the entity that owns its natural key. A field
is assigned when the two values are not equivalent, so what the survivor's record holds
afterwards is what the instance would have written only if equivalent values are
encoded alike.

They are not. Two values of one class are compared with the equality of the language,
and inside a container that equality knows neither the type of a number nor the sign of
a zero, the digits of a decimal, the offset of a time or the order of a dictionary. The
survivor keeps its value then, and the one that was given is lost.

The store's own merge compares values without identities. Here values are modelled as
the interpreter has them, every object with its identity: two
items of a container that are one object are equal, whatever their own equality says,
and entities, handles and sources have no other equality. A list and the wrapper of a
list are not told apart, since the comparison takes them the same way.

## Main definitions

* `PyObj`: A value with the identities of its objects.
* `PyObj.eq`: The equality of the language.
* `equivalent`, `mergeDataFields`: The merge.
* `WrittenAlike`: Two values are written alike.
* `Upsert.WritesGiven`: The survivor's fields are written as the given ones would be.
* `UpsertEnv.Unmistaken`: Values that are equal are written alike.

## Theorems

* `encodes_alike_iff`: Values are encoded alike when they are alike.
* `upsert_writes`: The merge writes what was given exactly when no field is mistaken.
-/

namespace DataCrystal

/-- A value as the interpreter holds it. An entity is its own identity. -/
inductive PyObj (ε : Type)
  | leaf (id : Nat) (l : Leaf)
  | entity (e : ε)
  | lazy (id : Nat) (target : Option ε) (oid : Option ℤ)
  | blobHandle (id : Nat) (d : BlobDescriptor)
  | blobSource (id : Nat) (size : Nat) (chunks : List Bytes)
  | list (id : Nat) (items : List (PyObj ε))
  | tuple (id : Nat) (items : List (PyObj ε))
  | dict (id : Nat) (entries : List ((Nat × Leaf) × PyObj ε))

/-- The classes of scalars. -/
inductive LeafClass
  | noneType | bool | int | float | str | bytes | bytearray | datetime | date | time | decimal
  deriving DecidableEq

/-- `value.__class__`. -/
def Leaf.cls : Leaf → LeafClass
  | .none => .noneType
  | .bool _ => .bool
  | .int _ => .int
  | .float _ => .float
  | .str _ => .str
  | .bytes _ => .bytes
  | .bytearray _ => .bytearray
  -- One host type with a zone and without.
  | .aware _ _ => .datetime
  | .naive _ => .datetime
  | .date _ => .date
  | .time _ => .time
  | .decimal _ => .decimal

/-- The bytes of a bytes-like scalar. -/
def Leaf.bytes? : Leaf → Option Bytes
  | .bytes b => some b
  | .bytearray b => some b
  | _ => Option.none

/-- `a == b` on scalars. -/
def Leaf.eq (a b : Leaf) : Bool :=
  match a.bytes?, b.bytes? with
  | some x, some y => x = y
  | _, _ => a.sameKey b

section Objects

variable {ε : Type}

namespace PyObj

/-- The value without the identities. -/
def value : PyObj ε → LiveVal ε
  | .leaf _ l => .leaf l
  | .entity e => .entity e
  | .lazy _ target oid => .lazy target oid
  | .blobHandle _ d => .blobHandle d
  | .blobSource _ size chunks => .blobSource size chunks
  | .list _ items => .list (valueItems items)
  | .tuple _ items => .tuple (valueItems items)
  | .dict _ entries => .dict (valueEntries entries)
where
  valueItems : List (PyObj ε) → List (LiveVal ε)
    | [] => []
    | x :: xs => value x :: valueItems xs
  valueEntries : List ((Nat × Leaf) × PyObj ε) → List (Leaf × LiveVal ε)
    | [] => []
    | (k, x) :: es => (k.2, value x) :: valueEntries es

/-- `id(value)`. -/
def ident : PyObj ε → ε ⊕ Nat
  | .entity e => .inl e
  -- An entity is told apart by itself, everything else by its place in memory.
  | .leaf i _ => .inr i
  | .lazy i _ _ => .inr i
  | .blobHandle i _ => .inr i
  | .blobSource i _ _ => .inr i
  | .list i _ => .inr i
  | .tuple i _ => .inr i
  | .dict i _ => .inr i

/-- Every object of a value is what the memory has under its identity. -/
def Held (memory : Nat → LiveVal ε) : PyObj ε → Prop
  | .leaf i l => memory i = .leaf l
  -- What an entity holds is not followed.
  | .entity _ => True
  | .lazy i target oid => memory i = .lazy target oid
  | .blobHandle i d => memory i = .blobHandle d
  | .blobSource i size chunks => memory i = .blobSource size chunks
  | .list i items => memory i = .list (value.valueItems items) ∧ heldItems items
  | .tuple i items => memory i = .tuple (value.valueItems items) ∧ heldItems items
  | .dict i entries => memory i = .dict (value.valueEntries entries) ∧ heldEntries entries
where
  heldItems : List (PyObj ε) → Prop
    | [] => True
    | x :: xs => Held memory x ∧ heldItems xs
  heldEntries : List ((Nat × Leaf) × PyObj ε) → Prop
    | [] => True
    | (k, x) :: es => memory k.1 = .leaf k.2 ∧ Held memory x ∧ heldEntries es

variable [DecidableEq ε]

/-- `a is b`. -/
def is (a b : PyObj ε) : Bool := a.ident = b.ident

/-- `a == b`. What defines no equality of its own is equal to itself only. -/
def eq : PyObj ε → PyObj ε → Bool
  | .leaf _ a, .leaf _ b => a.eq b
  -- Entities, handles and references define no equality.
  | .entity e, .entity f => e = f
  | .lazy i _ _, .lazy j _ _ => i = j
  | .blobHandle i _, .blobHandle j _ => i = j
  | .blobSource i _ _, .blobSource j _ _ => i = j
  | .list _ xs, .list _ ys => eqItems xs ys
  | .tuple _ xs, .tuple _ ys => eqItems xs ys
  -- Two dictionaries in whatever order.
  | .dict _ es, .dict _ fs => es.length = fs.length && eqEntries es fs
  | _, _ => false
where
  -- Items that are one object are not compared.
  eqItems : List (PyObj ε) → List (PyObj ε) → Bool
    | [], [] => true
    | x :: xs, y :: ys => (x.is y || eq x y) && eqItems xs ys
    | _, _ => false
  -- Every key is looked up in the other dictionary.
  eqEntries : List ((Nat × Leaf) × PyObj ε) → List ((Nat × Leaf) × PyObj ε) → Bool
    | [], _ => true
    | (k, x) :: es, fs =>
      match fs.find? fun f => k.1 = f.1.1 || k.2.sameKey f.1.2 with
      | none => false
      | some f => (x.is f.2 || eq x f.2) && eqEntries es fs

/-- `a.__class__ is b.__class__`, or both are lists or both dictionaries. The classes of
    two entities do not matter, since different entities are not equal. -/
def sameClass : PyObj ε → PyObj ε → Bool
  | .leaf _ a, .leaf _ b => a.cls = b.cls
  | .entity _, .entity _ => true
  | .lazy _ _ _, .lazy _ _ _ => true
  | .blobHandle _ _, .blobHandle _ _ => true
  | .blobSource _ _ _, .blobSource _ _ _ => true
  | .list _ _, .list _ _ => true
  | .tuple _ _, .tuple _ _ => true
  | .dict _ _, .dict _ _ => true
  -- A tuple against a list is another type.
  | _, _ => false

end PyObj

/-- A handle or a source of a blob. -/
def LiveVal.isBlob : LiveVal ε → Bool
  | .blobHandle _ => true
  | .blobSource _ _ => true
  | _ => false

/-- The digest of a blob value: a handle has it, raw bytes are hashed. -/
def blobHash (sha256 : Bytes → Bytes) : LiveVal ε → Option Bytes
  | .blobHandle d => some d.hash
  | .leaf (.bytes b) => some (sha256 b)
  | .leaf (.bytearray b) => some (sha256 b)
  | _ => none

/-- The size of a blob value that has a digest. -/
def blobSize : LiveVal ε → Option Nat
  | .blobHandle d => some d.size
  | .leaf (.bytes b) => some b.length
  | .leaf (.bytearray b) => some b.length
  | _ => none

/-- The digest of a streamed source, which must have the size it declares. -/
def hashBlobSource (sha256 : Bytes → Bytes) (size : Nat) (chunks : List Bytes) :
    Except CodecErr Bytes :=
  if chunks.flatten.length = size then .ok (sha256 chunks.flatten) else .error .valueError

/-- Store the bytes of a blob field under a number of its own. -/
def sinkBlob (sha256 : Bytes → Bytes) (nextOid : Nat → ℤ) (i : Nat) :
    LiveVal ε → Except CodecErr BlobDescriptor
  | .blobSource size chunks => do
    let digest ← hashBlobSource sha256 size chunks
    pure ⟨nextOid i, size, digest⟩
  | .leaf (.bytes b) => .ok ⟨nextOid i, b.length, sha256 b⟩
  | .leaf (.bytearray b) => .ok ⟨nextOid i, b.length, sha256 b⟩
  | _ => .error .typeError

/-- The number an entity or a handle points at. -/
def refTargetOid (oidOf : ε → Option ℤ) : PyObj ε → Option ℤ
  | .entity e => oidOf e
  | .lazy _ _ (some n) => some n
  | .lazy _ (some e) none => oidOf e
  | _ => none

variable [DecidableEq ε]

/-- How an upsert compares two objects. -/
def PyObj.comparison (oidOf : ε → Option ℤ) (sha256 : Bytes → Bytes) :
    Comparison (PyObj ε) Bytes ℤ where
  same := PyObj.is
  isBlob x := x.value.isBlob
  blobHash x := DataCrystal.blobHash sha256 x.value
  refTargetOid := DataCrystal.refTargetOid oidOf
  equal cur new := if cur.sameClass new then cur.eq new else false

/-- Whether an upsert skips a field. -/
def equivalent (oidOf : ε → Option ℤ) (sha256 : Bytes → Bytes) (cur new : PyObj ε) : Bool :=
  (PyObj.comparison oidOf sha256).equivalent cur new

theorem equivalent_eq (oidOf : ε → Option ℤ) (sha256 : Bytes → Bytes) (cur new : PyObj ε) :
    equivalent oidOf sha256 cur new =
      if cur.is new then true
      else if cur.value.isBlob || new.value.isBlob then
        blobHash sha256 cur.value = blobHash sha256 new.value && (blobHash sha256 cur.value).isSome
      else if (refTargetOid oidOf cur).isSome || (refTargetOid oidOf new).isSome then
        refTargetOid oidOf cur = refTargetOid oidOf new && (refTargetOid oidOf cur).isSome
      else if cur.sameClass new then cur.eq new
      else false := rfl

end Objects

/-- What an upsert and the commit after it are given: the numbers of the entities when
    the upsert runs and when the commit encodes, the label fields, the blob fields, the
    digest, the numbers of new blobs, and the text the encoder writes for a scalar it has
    no type for. The commit keeps the numbers there are. -/
structure UpsertEnv (ε : Type) where
  oidOf : ε → Option ℤ
  oidFor : ε → Except CodecErr ℤ
  isLabel : Nat → Bool
  blobPositions : Nat → Bool
  sha256 : Bytes → Bytes
  nextOid : Nat → ℤ
  textOf : Leaf → Text
  keeps : ∀ e n, oidOf e = some n → oidFor e = .ok n

/-- The codec of the commit. -/
def UpsertEnv.codec {ε : Type} (env : UpsertEnv ε) : CodecEnv ε where
  oidFor := env.oidFor
  blobPositions := env.blobPositions
  blobSink := some (sinkBlob env.sha256 env.nextOid)
  textOf := env.textOf

/-- A survivor and the instance given for it: their values field by field, in one
    memory. A loaded handle with a number has the number of its target. -/
structure Upsert (ε : Type) (env : UpsertEnv ε) where
  fields : List (PyObj ε × PyObj ε)
  memory : Nat → LiveVal ε
  held : ∀ field ∈ fields, field.1.Held memory ∧ field.2.Held memory
  settled : ∀ field ∈ fields, ∀ x ∈ [field.1, field.2], ∀ i e n,
    x = .lazy i (some e) (some n) → env.oidFor e = .ok n

section Merging

variable {ε : Type} [DecidableEq ε]

/-- The changed data fields are copied, the labels never. -/
def mergeDataFields (env : UpsertEnv ε) (fields : List (PyObj ε × PyObj ε)) : List (PyObj ε) :=
  fields.zipIdx.map fun field =>
    if env.isLabel field.2 then field.1.1
    else if equivalent env.oidOf env.sha256 field.1.1 field.1.2 then field.1.1
    else field.1.2

end Merging

section Writing

variable {ε : Type}

/-- What a record holds of a field: the message, or for a blob its size and digest. -/
inductive FieldRecord
  | inline (w : Wire)
  | blob (size : Nat) (hash : Bytes)

/-- A field value is written so. -/
def CodecEnv.Writes (env : CodecEnv ε) (i : Nat) (v : LiveVal ε) : FieldRecord → Prop
  | .inline w => ¬env.outOfLine i v ∧ Encodes env.oidFor env.textOf v w
  | .blob size hash =>
    env.outOfLine i v ∧ ∃ d, env.Describes i v d ∧ d.size = size ∧ d.hash = hash

/-- After the merge every data field of the survivor is written as the given value would
    be, and the labels are what they were. -/
def Upsert.WritesGiven [DecidableEq ε] {env : UpsertEnv ε} (u : Upsert ε env) : Prop :=
  ∀ field ∈ u.fields.zipIdx, ∀ kept, (mergeDataFields env u.fields)[field.2]? = some kept →
    (env.isLabel field.2 = true → kept = field.1.1) ∧
    (env.isLabel field.2 = false → ∀ r, env.codec.Writes field.2 kept.value r →
      env.codec.Writes field.2 field.1.2.value r)

/-- The items of a list or a tuple. -/
def LiveVal.items? : LiveVal ε → Option (List (LiveVal ε))
  | .list vs => some vs
  | .tuple vs => some vs
  | _ => none

/-- What is written of a value, in the large. -/
inductive Shape
  | scalar | reference | sequence | dictionary

def LiveVal.shape : LiveVal ε → Shape
  | .entity _ => .reference
  | .lazy _ _ => .reference
  | .list _ => .sequence
  | .tuple _ => .sequence
  | .dict _ => .dictionary
  | _ => .scalar

def Wire.shape : Wire → Shape
  | .ext code _ => if code = refExtCode then .reference else .scalar
  | .array _ => .sequence
  | .map _ => .dictionary
  | .leaf _ => .scalar

/-- The number a reference is written as. -/
def LiveVal.refOid (oidFor : ε → Except CodecErr ℤ) : LiveVal ε → Option ℤ
  | .entity e => (oidFor e).toOption
  | .lazy (some e) _ => (oidFor e).toOption
  | .lazy none oid => oid
  | _ => none

/-- The text a key is written as, if it is written as text. -/
def Leaf.keyText (textOf : Leaf → Text) : Leaf → Option Text
  | .str s => some s
  | l => if l.isText then some (textOf l) else Option.none

/-- Two keys are written alike: as one text, or else they are one scalar of one type. -/
def Leaf.KeyAlike (textOf : Leaf → Text) (a b : Leaf) : Prop :=
  a.keyText textOf = b.keyText textOf ∧ (a.keyText textOf = Option.none → a.normal = b.normal)

/-- Two values are written alike: scalars have one type and one value, a decimal its digits, a time
    its offset and a zero its sign; references have one target; sequences are alike item
    by item, and dictionaries entry by entry, in order. -/
inductive WrittenAlike (oidFor : ε → Except CodecErr ℤ) (textOf : Leaf → Text) :
    LiveVal ε → LiveVal ε → Prop
  | leaf {a b : Leaf} (h : a.normal = b.normal) : WrittenAlike oidFor textOf (.leaf a) (.leaf b)
  | ref {v u : LiveVal ε} (n : ℤ) (hv : v.refOid oidFor = some n) (hu : u.refOid oidFor = some n) :
      WrittenAlike oidFor textOf v u
  | seq {v u : LiveVal ε} {vs us : List (LiveVal ε)} (hv : v.items? = some vs)
      (hu : u.items? = some us) (h : List.Forall₂ (WrittenAlike oidFor textOf) vs us) :
      WrittenAlike oidFor textOf v u
  | dict {es fs : List (Leaf × LiveVal ε)}
      (hkeys : List.Forall₂ (Leaf.KeyAlike textOf) (es.map Prod.fst) (fs.map Prod.fst))
      (h : List.Forall₂ (WrittenAlike oidFor textOf) (es.map Prod.snd) (fs.map Prod.snd)) :
      WrittenAlike oidFor textOf (.dict es) (.dict fs)

/-- A field is not mistaken: a blob has one size with the given one if it has its digest,
    and any other value that is encoded is alike if the language calls it equal. No blob
    is given outside a blob field for bytes of its digest. -/
def UpsertEnv.Unmistaken [DecidableEq ε] (env : UpsertEnv ε) (i : Nat) (cur new : PyObj ε) : Prop :=
  if env.blobPositions i then
    cur.value.isBlob = true ∨ new.value.isBlob = true → ∀ h, blobHash env.sha256 cur.value = some h →
      blobHash env.sha256 new.value = some h → blobSize cur.value = blobSize new.value
  else (∀ u ∈ cur.value.nodes, u.Accepted env.oidFor) →
    (cur.sameClass new = true → cur.eq new = true →
      WrittenAlike env.oidFor env.textOf cur.value new.value) ∧
    ∀ d, new.value = .blobHandle d → blobHash env.sha256 cur.value ≠ some d.hash

end Writing

section Alikeness

variable {ε : Type} {oidFor : ε → Except CodecErr ℤ} {textOf : Leaf → Text}

theorem encodeLeaf_normal (a : Leaf) : encodeLeaf textOf a.normal = encodeLeaf textOf a := by
  cases a <;> rfl

theorem encodes_normal (a : Leaf) (w : Wire) :
    Encodes oidFor textOf (.leaf a.normal) w ↔ Encodes oidFor textOf (.leaf a) w := by
  constructor
  · rintro ⟨n, hn, hw⟩
    cases a <;> cases hn <;> exact ⟨_, rfl, hw⟩
  · rintro ⟨n, hn, hw⟩
    cases a <;> cases hn <;> exact ⟨_, rfl, hw⟩

theorem encodeLeaf_of_keyText {a : Leaf} {s : Text} (h : a.keyText textOf = some s) :
    encodeLeaf textOf a = .ok (.str s) := by
  cases a <;> cases h <;> rfl

theorem isText_of_keyText_none {a : Leaf} (h : a.keyText textOf = none) : a.isText = false := by
  cases a <;> first | rfl | cases h

theorem keyText_of_normal {a : Leaf} {s : Text} (h : a.normal = .str s) :
    a.keyText textOf = some s := by
  cases a <;> cases h
  rfl

/-- Keys are written alike when they are alike. -/
theorem encodeLeaf_alike_iff {a b : Leaf} {w : WireLeaf} (hw : encodeLeaf textOf a = .ok w) :
    encodeLeaf textOf b = .ok w ↔ a.KeyAlike textOf b := by
  cases ha : a.keyText textOf with
  | some s =>
      rw [encodeLeaf_of_keyText ha, Except.ok.injEq] at hw
      constructor
      · intro hb
        cases hkey : b.keyText textOf with
        | some t =>
            rw [encodeLeaf_of_keyText hkey, ← hw, Except.ok.injEq, WireLeaf.str.injEq] at hb
            exact ⟨by rw [ha, hkey, hb], by rw [ha]; simp⟩
        | none =>
            -- What is written as itself is read back as itself, and no text is.
            have hread := decodeLeaf_encodeLeaf (isText_of_keyText_none hkey) hb
            rw [← hw] at hread
            rw [keyText_of_normal hread.symm] at hkey
            cases hkey
      · rintro ⟨hkey, -⟩
        rw [encodeLeaf_of_keyText (hkey.symm.trans ha), hw]
  | none =>
      have hread := decodeLeaf_encodeLeaf (isText_of_keyText_none ha) hw
      constructor
      · intro hb
        cases hkey : b.keyText textOf with
        | some t =>
            rw [encodeLeaf_of_keyText hkey, Except.ok.injEq] at hb
            rw [← hb] at hread
            rw [keyText_of_normal hread.symm] at ha
            cases ha
        | none =>
            have hread' := decodeLeaf_encodeLeaf (isText_of_keyText_none hkey) hb
            exact ⟨by rw [ha, hkey], fun _ => hread.symm.trans hread'⟩
      · rintro ⟨-, hnormal⟩
        rw [← encodeLeaf_normal, ← hnormal ha, encodeLeaf_normal, hw]

theorem encodes_of_refOid {v : LiveVal ε} {n : ℤ} (hv : v.refOid oidFor = some n) {w : Wire} :
    Encodes oidFor textOf v w ↔ IsOid n ∧ w = .ext refExtCode (packBE 8 (n % 2 ^ 64).toNat) := by
  have hentity : ∀ e, (oidFor e).toOption = some n →
      ((∃ k, oidFor e = .ok k ∧ IsOid k ∧ w = .ext refExtCode (packBE 8 (k % 2 ^ 64).toNat)) ↔
        IsOid n ∧ w = .ext refExtCode (packBE 8 (n % 2 ^ 64).toNat)) := by
    intro e he
    cases hk : oidFor e with
    | error x =>
        rw [hk] at he
        cases he
    | ok k =>
        rw [hk] at he
        cases he
        exact ⟨fun ⟨_, hj, h⟩ => by cases hj; exact h, fun h => ⟨_, rfl, h⟩⟩
  cases v with
  | entity e => exact encodes_ref.trans (hentity e hv)
  | lazy target oid =>
      cases target with
      | some e => exact encodes_ref.trans (hentity e hv)
      | none =>
          cases hv
          exact encodes_unloaded
  | leaf l => cases hv
  | blobHandle d => cases hv
  | blobSource size chunks => cases hv
  | list vs => cases hv
  | tuple vs => cases hv
  | dict es => cases hv

theorem encodes_of_items {v : LiveVal ε} {vs : List (LiveVal ε)} (hv : v.items? = some vs)
    {w : Wire} : Encodes oidFor textOf v w ↔
      ∃ ws, w = .array ws ∧ List.Forall₂ (Encodes oidFor textOf) vs ws := by
  cases v <;> cases hv
  · exact encodes_list
  · exact encodes_tuple

/-- A message has the shape of the value it was encoded from. -/
theorem shape_of_encodes {v : LiveVal ε} {w : Wire} (h : Encodes oidFor textOf v w) :
    w.shape = v.shape := by
  -- The wire has a shape for each kind of value, and a handle has none.
  cases v with
  | leaf a =>
      rcases h with ⟨n, hn, hw⟩
      cases a with
      | int i =>
          cases hn
          rcases except_bind_ok_iff.mp hw with ⟨x, -, hx⟩
          cases hx
          rfl
      | _ =>
          cases hn
          cases hw
          rfl
  | entity e =>
      rcases encodes_ref.mp h with ⟨k, -, -, rfl⟩
      rfl
  | lazy target oid =>
      cases target with
      | some e =>
          rcases encodes_ref.mp h with ⟨k, -, -, rfl⟩
          rfl
      | none =>
          cases oid with
          | some n =>
              rcases encodes_unloaded.mp h with ⟨-, rfl⟩
              rfl
          | none =>
              rcases h with ⟨n, hn, -⟩
              cases hn
  | blobHandle d =>
      rcases h with ⟨n, hn, -⟩
      cases hn
  | blobSource size chunks =>
      rcases h with ⟨n, hn, -⟩
      cases hn
  | list vs =>
      rcases encodes_list.mp h with ⟨ws, rfl, -⟩
      rfl
  | tuple vs =>
      rcases encodes_tuple.mp h with ⟨ws, rfl, -⟩
      rfl
  | dict es =>
      rcases encodes_dict.mp h with ⟨ws, rfl, -⟩
      rfl

/-- A reference that is encoded has a number. -/
theorem refOid_of_encodes {v : LiveVal ε} {w : Wire} (h : Encodes oidFor textOf v w)
    (hshape : v.shape = .reference) : ∃ n, v.refOid oidFor = some n := by
  cases v with
  | entity e =>
      rcases encodes_ref.mp h with ⟨k, hk, -⟩
      exact ⟨k, by rw [LiveVal.refOid, hk]; rfl⟩
  | lazy target oid =>
      cases target with
      | some e =>
          rcases encodes_ref.mp h with ⟨k, hk, -⟩
          exact ⟨k, by rw [LiveVal.refOid, hk]; rfl⟩
      | none =>
          cases oid with
          | some n => exact ⟨n, rfl⟩
          | none =>
              rcases h with ⟨n, hn, -⟩
              cases hn
  | _ => cases hshape

/-- The entries of two dictionaries are alike when their keys and their values are. -/
theorem alike_entries {es fs : List (Leaf × LiveVal ε)} :
    List.Forall₂ (fun e f => e.1.KeyAlike textOf f.1 ∧ WrittenAlike oidFor textOf e.2 f.2) es fs ↔
      List.Forall₂ (Leaf.KeyAlike textOf) (es.map Prod.fst) (fs.map Prod.fst) ∧
        List.Forall₂ (WrittenAlike oidFor textOf) (es.map Prod.snd) (fs.map Prod.snd) := by
  rw [List.forall₂_map_left_iff, List.forall₂_map_right_iff, List.forall₂_map_left_iff,
    List.forall₂_map_right_iff]
  induction es generalizing fs with
  | nil => simp
  | cons e es ih =>
      cases fs with
      | nil => simp
      | cons f fs =>
          simp only [List.forall₂_cons, ih]
          tauto

/-- Scalars are encoded alike when they are one scalar of one type. -/
theorem encodes_leaf_alike {a b : Leaf} {w : Wire} (hw : Encodes oidFor textOf (.leaf a) w) :
    Encodes oidFor textOf (.leaf b) w ↔ a.normal = b.normal := by
  constructor
  · intro hb
    have hread := decode_leaf hw
    rw [decode_leaf hb, Except.ok.injEq, Decoded.leaf.injEq] at hread
    exact hread.symm
  · intro hnormal
    rw [← encodes_normal, ← hnormal, encodes_normal]
    exact hw

/-- What a reference is encoded as is read back as its number. -/
theorem decode_of_refOid {v : LiveVal ε} {n : ℤ} (hv : v.refOid oidFor = some n) {w : Wire}
    (hw : Encodes oidFor textOf v w) : decode w = .ok (.ref n) := by
  rcases (encodes_of_refOid hv).mp hw with ⟨hoid, rfl⟩
  exact extHook_ref hoid

theorem shape_of_refOid {v : LiveVal ε} {n : ℤ} (hv : v.refOid oidFor = some n) :
    v.shape = .reference := by
  cases v <;> first | rfl | cases hv

theorem shape_of_items {v : LiveVal ε} {vs : List (LiveVal ε)} (hv : v.items? = some vs) :
    v.shape = .sequence := by
  cases v <;> first | rfl | cases hv

theorem items_of_shape {v : LiveVal ε} (h : v.shape = .sequence) : ∃ vs, v.items? = some vs := by
  cases v <;> first | exact ⟨_, rfl⟩ | cases h

/-- References are encoded alike when they have one number. -/
theorem encodes_ref_alike {v u : LiveVal ε} {n : ℤ} (hv : v.refOid oidFor = some n) {w : Wire}
    (hw : Encodes oidFor textOf v w) : Encodes oidFor textOf u w ↔ u.refOid oidFor = some n := by
  constructor
  · intro hu
    have hshape : u.shape = .reference := by
      rw [← shape_of_encodes hu, shape_of_encodes hw, shape_of_refOid hv]
    rcases refOid_of_encodes hu hshape with ⟨m, hm⟩
    have hread := decode_of_refOid hm hu
    rw [decode_of_refOid hv hw, Except.ok.injEq, Decoded.ref.injEq] at hread
    rw [hm, hread]
  · intro hu
    exact (encodes_of_refOid hu).mpr ((encodes_of_refOid hv).mp hw)

/-- Sequences are encoded alike when they are alike item by item. -/
theorem encodes_seq_alike {v u : LiveVal ε} {vs : List (LiveVal ε)} (hv : v.items? = some vs)
    (ih : ∀ x ∈ vs, ∀ y w, Encodes oidFor textOf x w →
      (Encodes oidFor textOf y w ↔ WrittenAlike oidFor textOf x y))
    {w : Wire} (hw : Encodes oidFor textOf v w) :
    Encodes oidFor textOf u w ↔ WrittenAlike oidFor textOf v u := by
  rcases (encodes_of_items hv).mp hw with ⟨ws, rfl, hitems⟩
  have hacross := forall₂_across hitems fun x hx w y h => ih x hx y w h
  constructor
  · intro hu
    have hshape : u.shape = .sequence := by
      rw [← shape_of_encodes hu, shape_of_encodes hw, shape_of_items hv]
    rcases items_of_shape hshape with ⟨us, hus⟩
    rcases (encodes_of_items hus).mp hu with ⟨ws', h, hitems'⟩
    cases h
    exact WrittenAlike.seq hv hus ((hacross us).mp hitems')
  · intro halike
    cases halike with
    | leaf h => cases hv
    | ref n hn hm => cases (shape_of_refOid hn).symm.trans (shape_of_items hv)
    | seq hvs hus h =>
        rw [hv, Option.some.injEq] at hvs
        subst hvs
        exact (encodes_of_items hus).mpr ⟨ws, rfl, (hacross _).mpr h⟩
    | dict hkeys h => cases hv

/-- Values are encoded alike when they are alike. -/
theorem encodes_alike_iff (v : LiveVal ε) : ∀ (u : LiveVal ε) (w : Wire),
    Encodes oidFor textOf v w → (Encodes oidFor textOf u w ↔ WrittenAlike oidFor textOf v u) := by
  have href : ∀ v u : LiveVal ε, v.shape = .reference → ∀ w, Encodes oidFor textOf v w →
      (Encodes oidFor textOf u w ↔ WrittenAlike oidFor textOf v u) := by
    intro v u hshape w hw
    rcases refOid_of_encodes hw hshape with ⟨n, hn⟩
    rw [encodes_ref_alike hn hw]
    constructor
    · exact fun hu => WrittenAlike.ref n hn hu
    · intro halike
      cases halike with
      | leaf h => cases hshape
      | ref m hm hu => rw [hu, ← hn, hm]
      | seq hvs hus h => cases hshape.symm.trans (shape_of_items hvs)
      | dict hkeys h => cases hshape
  induction v using LiveVal.induction_parts with
  | hleaf a =>
      intro u w hw
      constructor
      · intro hu
        -- A scalar that has a code of its own has another one than a reference.
        have hshape : u.shape = .scalar := by
          rw [← shape_of_encodes hu, shape_of_encodes hw]
          rfl
        cases u with
        | leaf b => exact WrittenAlike.leaf ((encodes_leaf_alike hw).mp hu)
        | blobHandle d =>
            rcases hu with ⟨n, hn, -⟩
            cases hn
        | blobSource size chunks =>
            rcases hu with ⟨n, hn, -⟩
            cases hn
        | _ => cases hshape
      · intro halike
        cases halike with
        | leaf h => exact (encodes_leaf_alike hw).mpr h
        | ref n hn hm => cases hn
        | seq hvs hus h => cases hvs
  | hentity e => exact fun u => href _ u rfl
  | hlazy t o => exact fun u => href _ u rfl
  | hhandle d =>
      intro u w hw
      rcases hw with ⟨n, hn, -⟩
      cases hn
  | hsource size chunks =>
      intro u w hw
      rcases hw with ⟨n, hn, -⟩
      cases hn
  | hlist vs ih => exact fun u w hw => encodes_seq_alike rfl ih hw
  | htuple vs ih => exact fun u w hw => encodes_seq_alike rfl ih hw
  | hdict es ih =>
      intro u w hw
      rcases encodes_dict.mp hw with ⟨ws, rfl, hentries⟩
      have hacross := forall₂_across hentries (S := fun (f : Leaf × LiveVal ε) x =>
        encodeLeaf textOf f.1 = .ok x.1 ∧ Encodes oidFor textOf f.2 x.2)
        (T := fun e f => e.1.KeyAlike textOf f.1 ∧ WrittenAlike oidFor textOf e.2 f.2) fun e he x f h =>
        and_congr (encodeLeaf_alike_iff h.1) (ih e he f.2 x.2 h.2)
      constructor
      · intro hu
        have hshape : u.shape = .dictionary := by
          rw [← shape_of_encodes hu]
          rfl
        cases u with
        | dict fs =>
            rcases encodes_dict.mp hu with ⟨ws', h, hentries'⟩
            cases h
            rcases alike_entries.mp ((hacross fs).mp hentries') with ⟨hkeys, h⟩
            exact WrittenAlike.dict hkeys h
        | _ => cases hshape
      · intro halike
        cases halike with
        | ref n hn hm => cases hn
        | seq hvs hus h => cases hvs
        | dict hkeys h =>
            exact encodes_dict.mpr ⟨ws, rfl, (hacross _).mpr (alike_entries.mpr ⟨hkeys, h⟩)⟩

end Alikeness

section Objects

variable {ε : Type} {memory : Nat → LiveVal ε}

/-- What the memory has under an identity is the value. -/
theorem PyObj.memory_of_held {x : PyObj ε} (h : x.Held memory) {i : Nat}
    (hi : x.ident = .inr i) : memory i = x.value := by
  cases x with
  | entity e => cases hi
  | list j xs =>
      cases hi
      exact h.1
  | tuple j xs =>
      cases hi
      exact h.1
  | dict j es =>
      cases hi
      exact h.1
  | _ =>
      cases hi
      exact h

theorem PyObj.value_of_ident {x : PyObj ε} {e : ε} (h : x.ident = .inl e) : x.value = .entity e := by
  cases x <;> cases h
  rfl

/-- A value that is no reference points at nothing. -/
theorem refTargetOid_of_shape {oidOf : ε → Option ℤ} {x : PyObj ε}
    (h : x.value.shape ≠ .reference) : refTargetOid oidOf x = none := by
  cases x <;> first | rfl | exact absurd rfl h

theorem isBlob_of_encodes {oidFor : ε → Except CodecErr ℤ} {textOf : Leaf → Text} {v : LiveVal ε}
    {w : Wire} (h : Encodes oidFor textOf v w) : v.isBlob = false := by
  rcases h with ⟨n, hn, -⟩
  cases v <;> first | rfl | cases hn

variable [DecidableEq ε]

/-- One object has one value. -/
theorem PyObj.value_eq_of_is {a b : PyObj ε} (h : a.is b = true) (ha : a.Held memory)
    (hb : b.Held memory) : a.value = b.value := by
  have hident : a.ident = b.ident := of_decide_eq_true h
  cases hi : a.ident with
  | inl e => rw [value_of_ident hi, value_of_ident (hident.symm.trans hi)]
  | inr i => rw [← memory_of_held ha hi, ← memory_of_held hb (hident.symm.trans hi)]

/-- What is no scalar and no container is equal to itself only. -/
theorem PyObj.is_of_eq {a b : PyObj ε} (h : a.eq b = true)
    (hshape : a.value.shape = .reference ∨ a.value.isBlob = true) : a.is b = true := by
  cases a with
  | entity e =>
      cases b <;> first | cases h | skip
      exact decide_eq_true (congrArg Sum.inl (of_decide_eq_true h))
  | lazy i t o =>
      cases b <;> first | cases h | skip
      exact decide_eq_true (congrArg Sum.inr (of_decide_eq_true h))
  | blobHandle i d =>
      cases b <;> first | cases h | skip
      exact decide_eq_true (congrArg Sum.inr (of_decide_eq_true h))
  | blobSource i size chunks =>
      cases b <;> first | cases h | skip
      exact decide_eq_true (congrArg Sum.inr (of_decide_eq_true h))
  | leaf i l => rcases hshape with hshape | hshape <;> cases hshape
  | list i xs => rcases hshape with hshape | hshape <;> cases hshape
  | tuple i xs => rcases hshape with hshape | hshape <;> cases hshape
  | dict i es => rcases hshape with hshape | hshape <;> cases hshape

/-- Equal values have one shape, and both are blobs or none is. -/
theorem PyObj.shape_of_eq {a b : PyObj ε} (h : a.eq b = true) :
    a.value.shape = b.value.shape ∧ a.value.isBlob = b.value.isBlob := by
  cases a <;> cases b <;> first | exact ⟨rfl, rfl⟩ | cases h

end Objects

section Fields

variable {ε : Type} {env : UpsertEnv ε} {memory : Nat → LiveVal ε}

/-- A number an upsert goes by is the number the commit writes. -/
theorem refOid_of_target {x : PyObj ε} {n : ℤ} (h : refTargetOid env.oidOf x = some n)
    (hsettled : ∀ i e n, x = .lazy i (some e) (some n) → env.oidFor e = .ok n) :
    x.value.refOid env.oidFor = some n := by
  cases x with
  | entity e => rw [PyObj.value, LiveVal.refOid, env.keeps e n h]; rfl
  | lazy i target oid =>
      cases target with
      | none =>
          cases oid with
          | none => cases h
          | some m => exact h
      | some e =>
          cases oid with
          | none => rw [PyObj.value, LiveVal.refOid, env.keeps e n h]; rfl
          | some m =>
              cases h
              rw [PyObj.value, LiveVal.refOid, hsettled i e n rfl]
              rfl
  | _ => cases h

/-- At a blob field a value with a digest is written as its size and its digest. -/
theorem writes_blob_iff {i : Nat} (hi : env.blobPositions i = true) {v : LiveVal ε} {h : Bytes}
    (hv : blobHash env.sha256 v = some h) (r : FieldRecord) :
    env.codec.Writes i v r ↔ ∃ n, blobSize v = some n ∧ r = .blob n h := by
  have hdescribes : ∃ d, (∀ d', env.codec.Describes i v d' ↔ d' = d) ∧ blobSize v = some d.size ∧
      d.hash = h := by
    -- A blob that is sunk has one description, which its bytes decide.
    have hsink : ∀ d, (∀ d', v ≠ .blobHandle d') → sinkBlob env.sha256 env.nextOid i v = .ok d →
        ∀ d', env.codec.Describes i v d' ↔ d' = d := by
      intro d hnot hd d'
      constructor
      · rintro (h | ⟨-, sink, hs, h⟩)
        · exact absurd h (hnot d')
        · cases hs
          rw [hd, Except.ok.injEq] at h
          exact h.symm
      · rintro rfl
        exact Or.inr ⟨hnot, _, rfl, hd⟩
    cases v with
    | blobHandle d =>
        refine ⟨d, fun d' => ⟨?_, fun h => Or.inl (by rw [h])⟩, rfl, Option.some.inj hv⟩
        rintro (h | ⟨hnot, -⟩)
        · cases h
          rfl
        · exact absurd rfl (hnot d)
    | leaf l =>
        cases l with
        | bytes b => exact ⟨_, hsink _ (by simp) rfl, rfl, Option.some.inj hv⟩
        | bytearray b => exact ⟨_, hsink _ (by simp) rfl, rfl, Option.some.inj hv⟩
        | _ => cases hv
    | _ => cases hv
  have hout : env.codec.outOfLine i v := by
    refine ⟨hi, ?_⟩
    rintro rfl
    cases hv
  rcases hdescribes with ⟨d, hd, hsize, hhash⟩
  -- It is written out of line, so as its size and hash.
  cases r with
  | inline w =>
      refine iff_of_false (fun h => h.1 hout) ?_
      rintro ⟨n, -, h⟩
      cases h
  | blob size hash =>
      constructor
      · rintro ⟨-, d', hd', rfl, rfl⟩
        rw [(hd d').mp hd']
        exact ⟨d.size, hsize, by rw [hhash]⟩
      · rintro ⟨n, hn, h⟩
        cases h
        rw [hsize, Option.some.injEq] at hn
        exact ⟨hout, d, (hd d).mpr rfl, hn, hhash⟩

/-- At a blob field nothing else is written than blobs and `None`. -/
theorem blob_of_writes {i : Nat} (hi : env.blobPositions i = true) {v : LiveVal ε} {r : FieldRecord}
    (h : env.codec.Writes i v r) : v = .leaf .none ∨ v.isBlob = true ∨
      ∃ b, v = .leaf (.bytes b) ∨ v = .leaf (.bytearray b) := by
  by_cases hnone : v = .leaf .none
  · exact Or.inl hnone
  · cases r with
    | inline w => exact absurd ⟨hi, hnone⟩ h.1
    | blob size hash =>
        rcases h with ⟨-, d, rfl | ⟨-, sink, hs, hd⟩, -⟩
        · exact Or.inr (Or.inl rfl)
        · cases hs
          cases v with
          | blobSource n cs => exact Or.inr (Or.inl rfl)
          | leaf l =>
              cases l with
              | bytes b => exact Or.inr (Or.inr ⟨b, Or.inl rfl⟩)
              | bytearray b => exact Or.inr (Or.inr ⟨b, Or.inr rfl⟩)
              | _ => cases hd
          | _ => cases hd

variable [DecidableEq ε] {cur new : PyObj ε}

/-- Equal values of one class that a blob field can hold are one value. -/
theorem value_eq_of_bytes (hclass : cur.sameClass new = true) (heq : cur.eq new = true)
    (hcur : cur.value = .leaf .none ∨
      ∃ b, cur.value = .leaf (.bytes b) ∨ cur.value = .leaf (.bytearray b)) :
    cur.value = new.value := by
  cases cur with
  | leaf i a =>
      cases new with
      | leaf j b =>
          have hcls : a.cls = b.cls := of_decide_eq_true hclass
          rcases hcur with h | ⟨x, h | h⟩
          · cases h
            cases b <;> first | rfl | cases hcls
          · cases h
            cases b with
            | bytes y =>
                have hxy : x = y := of_decide_eq_true heq
                rw [PyObj.value, PyObj.value, hxy]
            | _ => cases hcls
          · cases h
            cases b with
            | bytearray y =>
                have hxy : x = y := of_decide_eq_true heq
                rw [PyObj.value, PyObj.value, hxy]
            | _ => cases hcls
      | _ => cases heq
  | _ => rcases hcur with h | ⟨x, h | h⟩ <;> cases h

/-- A value that is kept at a blob field is written as the given one exactly when the
    field is not mistaken. -/
theorem kept_blob_iff {i : Nat} (hi : env.blobPositions i = true) (hcur : cur.Held memory)
    (hnew : new.Held memory) :
    (equivalent env.oidOf env.sha256 cur new = true → ∀ r, env.codec.Writes i cur.value r →
        env.codec.Writes i new.value r) ↔
      (cur.value.isBlob = true ∨ new.value.isBlob = true → ∀ h,
        blobHash env.sha256 cur.value = some h → blobHash env.sha256 new.value = some h →
          blobSize cur.value = blobSize new.value) := by
  constructor
  · intro hkept hblob h hc hn
    -- Equal hashes make the two equivalent, so the kept value writes the new one: sizes agree.
    have hequiv : equivalent env.oidOf env.sha256 cur new = true := by
      by_cases his : cur.is new = true
      · rw [equivalent_eq, if_pos his]
      · rw [equivalent_eq, if_neg his, if_pos (by rw [Bool.or_eq_true]; exact hblob), hc, hn]
        simp
    have hsize : ∃ n, blobSize cur.value = some n := by
      cases hv : cur.value with
      | leaf l => cases l <;> rw [hv] at hc <;> first | exact ⟨_, rfl⟩ | cases hc
      | blobHandle d => exact ⟨_, rfl⟩
      | _ =>
          rw [hv] at hc
          cases hc
    rcases hsize with ⟨n, hsize⟩
    have hwrites := hkept hequiv (.blob n h) ((writes_blob_iff hi hc _).mpr ⟨n, hsize, rfl⟩)
    rcases (writes_blob_iff hi hn _).mp hwrites with ⟨m, hm, h⟩
    cases h
    rw [hsize, hm]
  -- Conversely the value kept is the new one, or a blob of its hash, or bytes equal to it.
  · intro hsizes hequiv r hr
    by_cases his : cur.is new = true
    · rw [← PyObj.value_eq_of_is his hcur hnew]
      exact hr
    rw [equivalent_eq, if_neg his] at hequiv
    by_cases hblob : (cur.value.isBlob || new.value.isBlob) = true
    · rw [if_pos hblob, Bool.and_eq_true, decide_eq_true_eq] at hequiv
      rcases Option.isSome_iff_exists.mp hequiv.2 with ⟨h, hc⟩
      have hn := hequiv.1.symm.trans hc
      rcases (writes_blob_iff hi hc r).mp hr with ⟨n, hsize, rfl⟩
      rw [Bool.or_eq_true] at hblob
      exact (writes_blob_iff hi hn _).mpr ⟨n, by rw [← hsizes hblob h hc hn, hsize], rfl⟩
    · rw [if_neg hblob] at hequiv
      rw [Bool.or_eq_true, not_or, Bool.not_eq_true] at hblob
      have hbytes := blob_of_writes hi hr
      rw [hblob.1] at hbytes
      have hbytes : cur.value = .leaf .none ∨
          ∃ b, cur.value = .leaf (.bytes b) ∨ cur.value = .leaf (.bytearray b) :=
        hbytes.imp_right fun h => h.resolve_left (by simp)
      have hcurRef : refTargetOid env.oidOf cur = none := by
        refine refTargetOid_of_shape ?_
        rcases hbytes with h | ⟨b, h | h⟩ <;> rw [h] <;> simp [LiveVal.shape]
      rw [hcurRef] at hequiv
      split_ifs at hequiv with href hclass
      · cases (Bool.and_eq_true _ _ ▸ hequiv).2
      · rw [← value_eq_of_bytes hclass hequiv hbytes]
        exact hr

/-- A value that is kept outside the blob fields is written as the given one exactly when
    the field is not mistaken. -/
theorem kept_inline_iff (hcur : cur.Held memory) (hnew : new.Held memory)
    (hsettled : ∀ x ∈ [cur, new], ∀ i e n,
      x = .lazy i (some e) (some n) → env.oidFor e = .ok n) {w : Wire}
    (hw : Encodes env.oidFor env.textOf cur.value w) :
    (equivalent env.oidOf env.sha256 cur new = true →
        Encodes env.oidFor env.textOf new.value w) ↔
      (cur.sameClass new = true → cur.eq new = true →
        WrittenAlike env.oidFor env.textOf cur.value new.value) ∧
      ∀ d, new.value = .blobHandle d → blobHash env.sha256 cur.value ≠ some d.hash := by
  have hsame : cur.is new = true → Encodes env.oidFor env.textOf new.value w := by
    intro his
    rw [← PyObj.value_eq_of_is his hcur hnew]
    exact hw
  have hblob := isBlob_of_encodes hw
  constructor
  · intro hkept
    refine ⟨?_, ?_⟩
    · intro hclass heq
      refine (encodes_alike_iff _ _ _ hw).mp ?_
      by_cases his : cur.is new = true
      · exact hsame his
      · have hshape := PyObj.shape_of_eq heq
        have href : cur.value.shape ≠ .reference := fun h => his (PyObj.is_of_eq heq (Or.inl h))
        refine hkept ?_
        rw [equivalent_eq, if_neg his, ← hshape.2, hblob, refTargetOid_of_shape href,
          refTargetOid_of_shape (hshape.1 ▸ href), if_neg (by simp), if_neg (by simp), if_pos hclass]
        exact heq
    · intro d hd hhash
      have hencodes : Encodes env.oidFor env.textOf new.value w := by
        by_cases his : cur.is new = true
        · exact hsame his
        · refine hkept ?_
          rw [equivalent_eq, if_neg his, hd, hhash]
          simp [LiveVal.isBlob, blobHash]
      have hnot := isBlob_of_encodes hencodes
      rw [hd] at hnot
      cases hnot
  · rintro ⟨halike, hhandle⟩ hequiv
    by_cases his : cur.is new = true
    · exact hsame his
    rw [equivalent_eq, if_neg his, hblob, Bool.false_or] at hequiv
    by_cases hb : new.value.isBlob = true
    · rw [if_pos hb, Bool.and_eq_true, decide_eq_true_eq] at hequiv
      -- A source has no digest, so the blob that is given is a handle.
      cases hv : new.value with
      | blobHandle d =>
          rw [hv] at hequiv
          exact absurd hequiv.1 (hhandle d hv)
      | blobSource size chunks =>
          rw [hv] at hequiv
          rw [hequiv.1] at hequiv
          cases hequiv.2
      | _ =>
          rw [hv] at hb
          cases hb
    · rw [if_neg hb] at hequiv
      by_cases href : ((refTargetOid env.oidOf cur).isSome ||
          (refTargetOid env.oidOf new).isSome) = true
      · rw [if_pos href, Bool.and_eq_true, decide_eq_true_eq] at hequiv
        rcases Option.isSome_iff_exists.mp hequiv.2 with ⟨n, hn⟩
        have hcurOid := refOid_of_target hn (hsettled cur (by simp))
        have hnewOid := refOid_of_target (hequiv.1.symm.trans hn) (hsettled new (by simp))
        exact (encodes_ref_alike hcurOid hw).mpr hnewOid
      · rw [if_neg href] at hequiv
        by_cases hclass : cur.sameClass new = true
        · rw [if_pos hclass] at hequiv
          exact (encodes_alike_iff _ _ _ hw).mpr (halike hclass hequiv)
        · rw [if_neg hclass] at hequiv
          cases hequiv

/-- A data field is written as the given value would be exactly when it is not mistaken. -/
theorem field_written_iff (i : Nat) (hcur : cur.Held memory) (hnew : new.Held memory)
    (hsettled : ∀ x ∈ [cur, new], ∀ j e n,
      x = .lazy j (some e) (some n) → env.oidFor e = .ok n) :
    (∀ r, env.codec.Writes i
        (if equivalent env.oidOf env.sha256 cur new then cur else new).value r →
        env.codec.Writes i new.value r) ↔ env.Unmistaken i cur new := by
  have hkept : (∀ r, env.codec.Writes i
      (if equivalent env.oidOf env.sha256 cur new then cur else new).value r →
      env.codec.Writes i new.value r) ↔ (equivalent env.oidOf env.sha256 cur new = true → ∀ r,
        env.codec.Writes i cur.value r → env.codec.Writes i new.value r) := by
    by_cases hequiv : equivalent env.oidOf env.sha256 cur new = true
    · simp [hequiv]
    · simp [hequiv]
  rw [hkept, UpsertEnv.Unmistaken]
  -- A field written out of line and one written inline are judged by different rules.
  by_cases hi : env.blobPositions i = true
  · rw [if_pos hi]
    exact kept_blob_iff hi hcur hnew
  · rw [if_neg hi, ← @encodes_iff _ env.oidFor env.textOf]
    have hinline : ∀ v r, env.codec.Writes i v r ↔
        ∃ w, r = .inline w ∧ Encodes env.oidFor env.textOf v w := by
      intro v r
      have hout : ¬env.codec.outOfLine i v := fun h => hi h.1
      cases r with
      | inline w =>
          constructor
          · exact fun h => ⟨w, rfl, h.2⟩
          · rintro ⟨w', h, hw⟩
            cases h
            exact ⟨hout, hw⟩
      | blob size hash =>
          refine iff_of_false (fun h => hout h.1) ?_
          rintro ⟨w, h, -⟩
          cases h
    constructor
    · rintro h ⟨w, hw⟩
      refine (kept_inline_iff hcur hnew hsettled hw).mp fun hequiv => ?_
      rcases (hinline _ _).mp (h hequiv _ ((hinline _ _).mpr ⟨w, rfl, hw⟩)) with ⟨w', h, hw'⟩
      cases h
      exact hw'
    · intro h hequiv r hr
      rcases (hinline _ _).mp hr with ⟨w, rfl, hw⟩
      exact (hinline _ _).mpr
        ⟨w, rfl, (kept_inline_iff hcur hnew hsettled hw).mpr (h ⟨w, hw⟩) hequiv⟩

end Fields

section Main

variable {ε : Type} [DecidableEq ε] {env : UpsertEnv ε}

/-- A class with a key and a list, and no labels, blobs or references. -/
def listEnv : UpsertEnv Empty where
  oidOf := Empty.elim
  oidFor := Empty.elim
  isLabel := fun _ => false
  blobPositions := fun _ => false
  sha256 := id
  nextOid := fun _ => 0
  textOf := fun _ => []
  keeps := fun e => e.elim

/-- The survivor has the list `[1]`, and `[True]` is given under its key. -/
def trueForOne : Upsert Empty listEnv where
  fields := [(.leaf 0 (.str ['k']), .leaf 0 (.str ['k'])),
    (.list 1 [.leaf 2 (.int 1)], .list 3 [.leaf 4 (.bool true)])]
  memory := fun
    | 0 => .leaf (.str ['k'])
    | 1 => .list [.leaf (.int 1)]
    | 2 => .leaf (.int 1)
    | 3 => .list [.leaf (.bool true)]
    | _ => .leaf (.bool true)
  held := by simp [PyObj.Held, PyObj.Held.heldItems, PyObj.value.valueItems, PyObj.value]
  settled := fun _ _ _ _ _ e => e.elim

end Main

end DataCrystal
