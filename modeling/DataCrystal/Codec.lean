import Mathlib.Algebra.Order.Ring.Rat
import DataCrystal.Lib.Frames
import DataCrystal.Temporal
import DataCrystal.DecimalText

/-!
# The Record Codec

A record payload is a list of field values in one message. A pass over the values
before the encoding puts an extension where the message format has no type of its
own: for a reference the number of its target, for a date or a time its text, for a
decimal its text. The encoder writes everything else, and a hook reads the
extensions back.

The pass goes into lists, tuples and the values of dictionaries. The keys of a
dictionary it passes on as they are, and what the encoder then meets without a
type for it, a date or a decimal, it writes as text.

A message is modelled as the tree of its items: which bytes an item is written as is
the encoder's own affair. What the encoder writes for a value it has no type for is a
parameter. Blob fields are known by position, and the sink that stores their bytes
is a parameter as well, which may answer differently at every position.

## Main definitions

* `Leaf`: The scalar values, each with the type it has.
* `LiveVal`, `Native`, `Wire`, `Decoded`: A field value, what the pass leaves of it,
  the message, and what is decoded.
* `swizzle`, `encodePayload`: The way there.
* `extHook`, `decodePayload`: The way back.
-/

namespace DataCrystal

/-- A floating-point number. A NaN is equal to none, not even to itself. -/
inductive Double
  | finite (q : ℚ)
  | negZero
  | infinity (negative : Bool)
  | nan
  deriving DecidableEq

/-- A scalar with its type. An aware datetime is its instant, in microseconds, and
    the offset it is shown in. -/
inductive Leaf
  | none
  | bool (b : Bool)
  | int (i : ℤ)
  | float (x : Double)
  | str (s : Text)
  | bytes (b : Bytes)
  | bytearray (b : Bytes)
  | aware (instant : ℤ) (offset : Offset)
  | naive (d : NaiveDatetime)
  | date (d : Date)
  | time (t : Time)
  | decimal (d : Decimal)
  deriving DecidableEq

/-- A scalar up to the equality of dictionary keys: numbers of every type, and
    instants in every offset, are one key. -/
inductive HashKey
  | none
  | number (q : ℚ)
  | infinity (negative : Bool)
  | str (s : Text)
  | bytes (b : Bytes)
  | instant (i : ℤ)
  | naive (d : NaiveDatetime)
  | date (d : Date)
  | time (aware : Bool) (micros : ℤ)
  deriving DecidableEq

/-- An out-of-line value: its number, its size and its digest. -/
structure BlobDescriptor where
  oid : ℤ
  size : Nat
  hash : Bytes
  deriving DecidableEq

/-- A field value of a live entity. -/
inductive LiveVal (ε : Type)
  | leaf (l : Leaf)
  | entity (e : ε)
  | lazy (target : Option ε) (oid : Option ℤ)
  | blobHandle (d : BlobDescriptor)
  /-- A write that is streamed from somewhere. -/
  | blobSource (size : Nat) (chunks : List Bytes)
  | list (items : List (LiveVal ε))
  | tuple (items : List (LiveVal ε))
  | dict (entries : List (Leaf × LiveVal ε))

/-- What the encoder is given. -/
inductive Native
  | leaf (l : Leaf)
  | ext (code : Nat) (data : Bytes)
  | list (items : List Native)
  | dict (entries : List (Leaf × Native))

/-- A scalar item of a message. -/
inductive WireLeaf
  | nil
  | bool (b : Bool)
  | int (i : ℤ)
  | float (x : Double)
  | str (s : Text)
  | bin (b : Bytes)
  | timestamp (instant : ℤ)
  deriving DecidableEq

/-- A message. -/
inductive Wire
  | leaf (w : WireLeaf)
  | ext (code : Nat) (data : Bytes)
  | array (items : List Wire)
  | map (entries : List (WireLeaf × Wire))

/-- A decoded field value. -/
inductive Decoded
  | leaf (l : Leaf)
  | ref (oid : ℤ)
  | blob (d : BlobDescriptor)
  | ext (code : Nat) (data : Bytes)
  | list (items : List Decoded)
  | dict (entries : List (Leaf × Decoded))

/-- What encoding and decoding raise. -/
inductive CodecErr
  | typeError
  | overflowError
  | structError
  | valueError
  deriving DecidableEq, Repr

namespace Decimal

/-- The value of a decimal that has one. -/
def value (negative : Bool) (coefficient : Nat) (exponent : ℤ) : ℚ :=
  (if negative then -1 else 1) * coefficient * (10 : ℚ) ^ exponent

end Decimal

/-- The microseconds of a day up to a time. -/
def Clock.micros (c : Clock) : ℤ :=
  ((c.hour * 60 + c.minute) * 60 + c.second) * 1000000 + c.microsecond

namespace Leaf

/-- The dictionary key of a scalar; nothing for one that equals no key. -/
def hashKey : Leaf → Option HashKey
  -- True and 1, 1.0 and Decimal 1 are one key.
  | .none => some .none
  | .bool b => some (.number (if b then 1 else 0))
  | .int i => some (.number i)
  | .float (.finite q) => some (.number q)
  | .float .negZero => some (.number 0)
  | .float (.infinity negative) => some (.infinity negative)
  -- A NaN equals nothing, itself included.
  | .float .nan => Option.none
  | .str s => some (.str s)
  | .bytes b => some (.bytes b)
  -- Unhashable.
  | .bytearray _ => Option.none
  -- Aware datetimes are one key if they are one instant.
  | .aware instant _ => some (.instant instant)
  | .naive d => some (.naive d)
  | .date d => some (.date d)
  -- A time with an offset is keyed by its clock in UTC, and differs from every naive one.
  | .time t => some (.time t.offset.isSome (t.clock.micros - ((t.offset.map Offset.micros).getD 0)))
  | .decimal (.finite negative coefficient exponent) =>
    some (.number (Decimal.value negative coefficient exponent))
  | .decimal (.infinity negative) => some (.infinity negative)
  | .decimal (.nan _ _ _) => Option.none

/-- Two scalars are one dictionary key. -/
def sameKey (a b : Leaf) : Bool := a.hashKey.isSome && a.hashKey = b.hashKey

end Leaf

section Extensions

def refExtCode : Nat := 1
def naiveDatetimeExtCode : Nat := 2
def dateExtCode : Nat := 3
def timeExtCode : Nat := 4
def blobExtCode : Nat := 5
def decimalExtCode : Nat := 6

/-- A signed number in eight bytes. -/
def packSigned (i : ℤ) : Except CodecErr Bytes :=
  if -2 ^ 63 ≤ i ∧ i < 2 ^ 63 then .ok (packBE 8 (i % 2 ^ 64).toNat) else .error .structError

def unpackSigned (bs : Bytes) : ℤ :=
  let n := unpackBE bs
  if n < 2 ^ 63 then n else n - 2 ^ 64

/-- A number in eight bytes. -/
def packUnsigned (n : Nat) : Except CodecErr Bytes :=
  if n < 2 ^ 64 then .ok (packBE 8 n) else .error .structError

/-- A text as bytes, one for each character. -/
def encodeAscii (t : Text) : Bytes := t.map fun c => UInt8.ofNat c.toNat

/-- `str(data, "ascii")`. -/
def decodeAscii (bs : Bytes) : Except CodecErr Text :=
  if bs.all fun b => b.toNat < 128 then .ok (bs.map fun b => Char.ofNat b.toNat)
  else .error .valueError

def refExt (oid : ℤ) : Except CodecErr Native := do
  let data ← packSigned oid
  pure (.ext refExtCode data)

def blobExt (d : BlobDescriptor) : Except CodecErr Native := do
  let oid ← packSigned d.oid
  let size ← packUnsigned d.size
  pure (.ext blobExtCode (oid ++ size ++ d.hash))

/-- The exact text of a decimal. -/
def decimalExt (d : Decimal) : Native := .ext decimalExtCode (encodeAscii d.str)

end Extensions

section Encoding

variable {ε : Type}

/-- A scalar before the encoding. -/
def swizzleLeaf : Leaf → Native
  | .naive d => .ext naiveDatetimeExtCode (encodeAscii d.isoformat)
  | .date d => .ext dateExtCode (encodeAscii d.isoformat)
  | .time t => .ext timeExtCode (encodeAscii t.isoformat)
  | .decimal d => decimalExt d
  | l => .leaf l

/-- A handle goes by its loaded target, or else by its own number. -/
def lazyRefExt (oidFor : ε → Except CodecErr ℤ) (target : Option ε) (oid : Option ℤ) :
    Except CodecErr Native :=
  match target, oid with
  | some e, _ => do
    let n ← oidFor e
    refExt n
  | none, some n => refExt n
  | none, none => .error .typeError

/-- Put extensions for what the encoder has no type for. -/
def swizzle (oidFor : ε → Except CodecErr ℤ) : LiveVal ε → Except CodecErr Native
  | .leaf l => .ok (swizzleLeaf l)
  | .entity e => do
    let n ← oidFor e
    refExt n
  | .lazy target oid => lazyRefExt oidFor target oid
  -- A blob is only taken in a field of its own.
  | .blobHandle _ => .error .typeError
  | .blobSource _ _ => .error .typeError
  | .list items => do
    let ns ← swizzleItems items
    pure (.list ns)
  -- A tuple is written as a list.
  | .tuple items => do
    let ns ← swizzleItems items
    pure (.list ns)
  | .dict entries => do
    let ns ← swizzleEntries entries
    pure (.dict ns)
where
  swizzleItems : List (LiveVal ε) → Except CodecErr (List Native)
    | [] => pure []
    | v :: vs => do
      let n ← swizzle oidFor v
      let ns ← swizzleItems vs
      pure (n :: ns)
  swizzleEntries : List (Leaf × LiveVal ε) → Except CodecErr (List (Leaf × Native))
    | [] => pure []
    | (k, v) :: es => do
      let n ← swizzle oidFor v
      let ns ← swizzleEntries es
      pure ((k, n) :: ns)

/-- The encoder on a scalar: an integer must fit 64 bits, an aware datetime is a
    timestamp, and what has no type is written as text. -/
def encodeLeaf (textOf : Leaf → Text) : Leaf → Except CodecErr WireLeaf
  | .none => .ok .nil
  | .bool b => .ok (.bool b)
  -- What the wire format has room for.
  | .int i => if -2 ^ 63 ≤ i ∧ i < 2 ^ 64 then .ok (.int i) else .error .overflowError
  | .float x => .ok (.float x)
  | .str s => .ok (.str s)
  | .bytes b => .ok (.bin b)
  -- Bytes and bytearray are one type on the wire.
  | .bytearray b => .ok (.bin b)
  | .aware instant _ => .ok (.timestamp instant)
  -- The naive temporal types and decimals reach the encoder as keys only.
  | l => .ok (.str (textOf l))

/-- The encoder. -/
def encodeNative (textOf : Leaf → Text) : Native → Except CodecErr Wire
  | .leaf l => do
    let w ← encodeLeaf textOf l
    pure (.leaf w)
  -- A token is done: its code and its bytes go out as they are.
  | .ext code data => .ok (.ext code data)
  | .list items => do
    let ws ← encodeItems items
    pure (.array ws)
  | .dict entries => do
    let ws ← encodeEntries entries
    pure (.map ws)
where
  encodeItems : List Native → Except CodecErr (List Wire)
    | [] => pure []
    | n :: ns => do
      let w ← encodeNative textOf n
      let ws ← encodeItems ns
      pure (w :: ws)
  encodeEntries : List (Leaf × Native) → Except CodecErr (List (WireLeaf × Wire))
    | [] => pure []
    | (k, n) :: es => do
      let wk ← encodeLeaf textOf k
      let w ← encodeNative textOf n
      let ws ← encodeEntries es
      pure ((wk, w) :: ws)

/-- What the codec is given besides the values: the number of a live entity, the
    positions of the blob fields, what stores their bytes, and the text the encoder
    writes for a scalar it has no type for. -/
structure CodecEnv (ε : Type) where
  oidFor : ε → Except CodecErr ℤ
  blobPositions : Nat → Bool
  blobSink : Option (Nat → LiveVal ε → Except CodecErr BlobDescriptor)
  textOf : Leaf → Text

/-- One field: a blob that is already stored keeps its descriptor, another one is
    stored, and any other value goes through the pass. -/
def encodeField (env : CodecEnv ε) (i : Nat) (v : LiveVal ε) : Except CodecErr Native :=
  match env.blobPositions i, v with
  -- No blob.
  | true, .leaf .none => swizzle env.oidFor v
  -- One that is stored: its descriptor again, never its bytes.
  | true, .blobHandle d => blobExt d
  -- Raw bytes or a source: stored under an OID of their own.
  | true, _ =>
    match env.blobSink with
    | none => .error .typeError
    | some sink => do
      let d ← sink i v
      blobExt d
  | false, _ => swizzle env.oidFor v

def encodeFields (env : CodecEnv ε) : Nat → List (LiveVal ε) → Except CodecErr (List Native)
  | _, [] => pure []
  | i, v :: vs => do
    let n ← encodeField env i v
    let ns ← encodeFields env (i + 1) vs
    pure (n :: ns)

/-- A field-value list as a record payload. -/
def encodePayload (env : CodecEnv ε) (values : List (LiveVal ε)) : Except CodecErr Wire := do
  let out ← encodeFields env 0 values
  encodeNative env.textOf (.list out)

end Encoding

section Decoding

/-- A decoder that finds nothing raises. -/
def orRaise {α : Type} : Option α → Except CodecErr α
  | none => .error .valueError
  | some a => .ok a

/-- The extensions, read back. -/
def extHook (code : Nat) (data : Bytes) : Except CodecErr Decoded :=
  if code = refExtCode then
    -- Eight bytes, signed.
    if data.length = 8 then .ok (.ref (unpackSigned data)) else .error .structError
  else if code = naiveDatetimeExtCode then do
    let text ← decodeAscii data
    let d ← orRaise (NaiveDatetime.fromisoformat text)
    pure (.leaf (.naive d))
  else if code = dateExtCode then do
    let text ← decodeAscii data
    let d ← orRaise (Date.fromisoformat text)
    pure (.leaf (.date d))
  else if code = timeExtCode then do
    let text ← decodeAscii data
    let t ← orRaise (Time.fromisoformat text)
    pure (.leaf (.time t))
  else if code = decimalExtCode then do
    let text ← decodeAscii data
    let d ← orRaise (Decimal.parse text)
    pure (.leaf (.decimal d))
  -- A descriptor: OID and size, then whatever is left as the hash.
  else if code = blobExtCode then
    if data.length < 16 then .error .structError
    else
      .ok (.blob ⟨unpackSigned (data.take 8), unpackBE ((data.drop 8).take 8), data.drop 16⟩)
  -- A code of somebody else is kept as it is.
  else .ok (.ext code data)

def decodeLeaf : WireLeaf → Leaf
  | .nil => .none
  | .bool b => .bool b
  | .int i => .int i
  | .float x => .float x
  | .str s => .str s
  | .bin b => .bytes b
  | .timestamp instant => .aware instant utc

/-- `d[k] = v`: an equal key keeps its place. -/
def setKey (d : List (Leaf × Decoded)) (e : Leaf × Decoded) : List (Leaf × Decoded) :=
  if d.any fun x => x.1.sameKey e.1 then d.map fun x => if x.1.sameKey e.1 then (x.1, e.2) else x
  else d ++ [e]

/-- A dictionary from its entries, one after the other. -/
def buildDict (entries : List (Leaf × Decoded)) : List (Leaf × Decoded) := entries.foldl setKey []

/-- The decoder. -/
def decode : Wire → Except CodecErr Decoded
  | .leaf w => .ok (.leaf (decodeLeaf w))
  | .ext code data => extHook code data
  -- Every sequence comes back as a list.
  | .array items => do
    let ds ← decodeItems items
    pure (.list ds)
  -- A key twice: the later entry wins, in the place of the first.
  | .map entries => do
    let ds ← decodeEntries entries
    pure (.dict (buildDict ds))
where
  decodeItems : List Wire → Except CodecErr (List Decoded)
    | [] => pure []
    | w :: ws => do
      let d ← decode w
      let ds ← decodeItems ws
      pure (d :: ds)
  decodeEntries : List (WireLeaf × Wire) → Except CodecErr (List (Leaf × Decoded))
    | [] => pure []
    | (k, w) :: es => do
      let d ← decode w
      let ds ← decodeEntries es
      pure ((decodeLeaf k, d) :: ds)

/-- A record payload as its field-value list. -/
def decodePayload (payload : Wire) : Except CodecErr (List Decoded) :=
  match decode payload with
  | .ok (.list ds) => .ok ds
  | .ok _ => .error .typeError
  | .error e => .error e

end Decoding

end DataCrystal
