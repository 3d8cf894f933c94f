import DataCrystal.Codec
import DataCrystal.Lib.Rounding

/-!
# Columns of Values

A mirrored column holds values of every kind a record can have. Its tag says how
they are stored: as numbers, as texts, as lists of those, or, when nothing else
holds all of them, each as a message. A segment of the column is written under the
tag the column has then. When values of another kind come the tag is widened, and
the cells of an earlier segment are read and stored again under the new one.

An integer in a column of floats is stored as a float, which has 53 bits. A decimal
is stored with the scale of its column.

What is underneath, the columnar format, is a parameter. It is assumed to give back
the values of a tag's type as they were put in, decimals as the same number.

## Main definitions

* `Tag`, `tagOf`, `unify`: The tags, that of a value, and the least common one.
* `storable`, `semantic`: A value as it is stored, and back.
* `reswizzle`, `encodeFallback`: A value as a message.
* `Arrow`: The columnar format.
* `Column`, `Column.write`, `Column.compact`, `Column.read`: A column and its segments.
* `Contents`: What a column is to hold.
-/

namespace DataCrystal

/-- `float(i)`: the nearest number with 53 bits. -/
def Double.ofInt (i : ℤ) : Double := .finite (i.sign * roundBits 53 i.natAbs)

section Tags

def decimalMaxPrecision : Nat := 38

/-- How many digits a decimal column has, and how many of them behind the point.
    There is always one before it. -/
structure DecimalTag where
  precision : Nat
  scale : Nat
  integer : scale < precision
  most : precision ≤ decimalMaxPrecision
  deriving DecidableEq

/-- The meaning of a column. -/
inductive Tag
  | null
  | bool
  | int
  | float
  | str
  | bytes
  | ref
  | ts
  | tsUtc
  | date
  | time
  | decimal (d : DecimalTag)
  | list (inner : Tag)
  | fallback
  deriving DecidableEq

/-- The tag for so many digits before the point and behind it, up to the limit. -/
def decimalTagOf (integer scale : Nat) (h : 0 < integer) : Tag :=
  if hmost : integer + scale ≤ decimalMaxPrecision then
    .decimal ⟨integer + scale, scale, by omega, hmost⟩
  else .fallback

/-- The digits before the point. -/
def DecimalTag.integerDigits (d : DecimalTag) : Nat := d.precision - d.scale

theorem DecimalTag.integerDigits_pos (d : DecimalTag) : 0 < d.integerDigits := by
  have h := d.integer
  unfold integerDigits
  omega

/-- The narrowest decimal tag that covers both. -/
def unifyDecimalTags (a b : DecimalTag) : Tag :=
  decimalTagOf (max a.integerDigits b.integerDigits) (max a.scale b.scale)
    (Nat.lt_of_lt_of_le a.integerDigits_pos (Nat.le_max_left _ _))

def numericRank : Tag → Option Nat
  | .bool => some 0
  | .int => some 1
  | .float => some 2
  | _ => none

/-- A column of lists, unless its items have no tag but the last resort. -/
def listOf (inner : Tag) : Tag := if inner = .fallback then .fallback else .list inner

/-- The narrowest tag that holds the values of both. -/
def unify (a b : Tag) : Tag :=
  if a = b then a
  else
    match a, b with
    -- Two decimals widen to hold both.
    | .decimal d, .decimal e => unifyDecimalTags d e
    -- An empty column takes what comes.
    | .null, b => b
    | a, .null => a
    -- Lists unify by their items.
    | .list x, .list y => listOf (unify x y)
    | a, b =>
      -- Bool, int and float by their rank, anything else as messages.
      match numericRank a, numericRank b with
      | some m, some n => if n ≤ m then a else b
      | _, _ => .fallback

/-- A decimal takes as many digits as it has, or as its exponent asks for. -/
def decimalTag : Decimal → Tag
  | .finite _ coefficient exponent =>
    decimalTagOf (max (numDigits coefficient + exponent) 1).toNat (max (-exponent) 0).toNat
      (by omega)
  | _ => .fallback

def leafTag : Leaf → Tag
  | .none => .null
  | .bool _ => .bool
  -- An integer past 64 bits has no column type.
  | .int i => if -2 ^ 63 ≤ i ∧ i ≤ 2 ^ 63 - 1 then .int else .fallback
  | .float _ => .float
  | .str _ => .str
  | .bytes _ => .bytes
  -- Bytes are bytes, mutable or not.
  | .bytearray _ => .bytes
  | .aware _ _ => .tsUtc
  | .naive _ => .ts
  | .date _ => .date
  -- A time with an offset has no column type.
  | .time t => if t.offset = none then .time else .fallback
  | .decimal d => decimalTag d

/-- The tag of a value. -/
def tagOf : Decoded → Tag
  | .leaf l => leafTag l
  | .ref _ => .ref
  | .blob _ => .fallback
  | .ext _ _ => .fallback
  | .list items => listOf ((tagsOf items).foldl unify .null)
  | .dict _ => .fallback
where
  tagsOf : List Decoded → List Tag
    | [] => []
    | d :: ds => tagOf d :: tagsOf ds

/-- A column's tag, widened by some values. -/
def widen (tag : Tag) (vs : List Decoded) : Tag := vs.foldl (fun t v => unify t (tagOf v)) tag

end Tags

section Cells

/-- What goes into a column: scalars, messages, and lists of what goes in. -/
inductive Stored
  | leaf (l : Leaf)
  | message (w : Wire)
  | list (items : List Stored)

/-- The exceptions of a column. -/
inductive ColumnErr
  | assertionError
  /-- A value that is not of the column's type. -/
  | refused
  | codec (e : CodecErr)
  deriving DecidableEq

variable (textOf : Leaf → Text)

/-- A value before its encoding as a message. A blob is passed on as it is, and the
    encoder has no type for it. -/
def reswizzle : Decoded → Except CodecErr Native
  | .leaf l => .ok (swizzleLeaf l)
  | .ref oid => refExt oid
  -- No case of the source takes a blob.
  | .blob _ => .error .typeError
  | .ext code data => .ok (.ext code data)
  | .list items => do
    let ns ← reswizzleItems items
    pure (.list ns)
  | .dict entries => do
    let ns ← reswizzleEntries entries
    pure (.dict ns)
where
  reswizzleItems : List Decoded → Except CodecErr (List Native)
    | [] => pure []
    | d :: ds => do
      let n ← reswizzle d
      let ns ← reswizzleItems ds
      pure (n :: ns)
  reswizzleEntries : List (Leaf × Decoded) → Except CodecErr (List (Leaf × Native))
    | [] => pure []
    | (k, d) :: es => do
      let n ← reswizzle d
      let ns ← reswizzleEntries es
      pure ((k, n) :: ns)

/-- A value as a message. -/
def encodeFallback (v : Decoded) : Except CodecErr Wire := do
  let n ← reswizzle v
  encodeNative textOf n

/-- A scalar in a column of numbers. -/
def coerceLeaf : Tag → Leaf → Leaf
  | .float, .int i => .float (Double.ofInt i)
  | .float, .bool b => .float (Double.ofInt (if b then 1 else 0))
  | .int, .bool b => .int (if b then 1 else 0)
  | _, l => l

/-- The cell of a missing value. -/
def Stored.absent : Stored := .leaf .none

/-- What is stored of a value under a tag. -/
def storable : Tag → Decoded → Except ColumnErr Stored
  | .ref, v =>
    match v with
    | .leaf .none => .ok .absent
    | .ref oid => .ok (.leaf (.int oid))
    | _ => .error .assertionError
  | .fallback, v =>
    match v with
    | .leaf .none => .ok .absent
    | v => ((encodeFallback textOf v).map .message).mapError .codec
  | .list inner, v =>
    match v with
    | .leaf .none => .ok .absent
    | .list items => do
      let cells ← items.mapM (storable inner)
      pure (.list cells)
    | _ => .error .assertionError
  | .bytes, v =>
    match v with
    | .leaf .none => .ok .absent
    | .leaf (.bytes b) => .ok (.leaf (.bytes b))
    | .leaf (.bytearray b) => .ok (.leaf (.bytes b))
    | _ => .error .assertionError
  | tag, v =>
    match v with
    | .leaf l => .ok (.leaf (coerceLeaf tag l))
    -- The column has no such type.
    | _ => .error .refused

/-- The value of what is stored. -/
def semantic : Tag → Stored → Except ColumnErr Decoded
  | .ref, s =>
    match s with
    | .leaf .none => .ok (.leaf .none)
    | .leaf (.int oid) => .ok (.ref oid)
    | _ => .error .assertionError
  | .fallback, s =>
    match s with
    | .leaf .none => .ok (.leaf .none)
    | .message w => (decode w).mapError .codec
    | _ => .error .assertionError
  | .list inner, s =>
    match s with
    | .leaf .none => .ok (.leaf .none)
    | .list cells => do
      let items ← cells.mapM (semantic inner)
      pure (.list items)
    | _ => .error .assertionError
  | _, s =>
    match s with
    | .leaf l => .ok (.leaf l)
    -- No column of such a tag gives this back.
    | _ => .error .refused

end Cells

section Format

/-- A number with so many digits before the point and behind it. -/
def DecimalTag.Covers (d : DecimalTag) (q : ℚ) : Prop :=
  ∃ u : ℤ, q * 10 ^ d.scale = u ∧ |u| < 10 ^ d.precision

/-- A scalar of the type of a tag. -/
def Tag.Types : Tag → Leaf → Prop
  | .bool, .bool _ => True
  -- The numbers of a 64-bit column.
  | .int, .int i => -2 ^ 63 ≤ i ∧ i < 2 ^ 63
  | .float, .float _ => True
  | .str, .str _ => True
  | .bytes, .bytes _ => True
  | .ts, .naive _ => True
  -- An aware column is in UTC.
  | .tsUtc, .aware _ offset => offset = utc
  | .date, .date _ => True
  | .time, .time t => t.offset = none
  -- As wide as the precision and the scale of the column.
  | .decimal d, .decimal (.finite negative coefficient exponent) =>
    d.Covers (Decimal.value negative coefficient exponent)
  | _, _ => False

/-- What is stored is of the type of a tag. -/
def Tag.Takes : Tag → Stored → Prop
  | .ref, s => s = .absent ∨ ∃ i : ℤ, s = .leaf (.int i) ∧ -2 ^ 63 ≤ i ∧ i < 2 ^ 63
  | .fallback, s => s = .absent ∨ ∃ w, s = .message w
  | .list inner, s => s = .absent ∨ ∃ cells, s = .list cells ∧ ∀ c ∈ cells, inner.Takes c
  | tag, s => s = .absent ∨ ∃ l, s = .leaf l ∧ tag.Types l

/-- The same scalar, or the same decimal number. -/
def Leaf.SameValue (a b : Leaf) : Prop :=
  a = b ∨ ∃ s c e s' c' e', a = .decimal (.finite s c e) ∧ b = .decimal (.finite s' c' e') ∧
    Decimal.value s c e = Decimal.value s' c' e'

/-- The same cell, up to how its decimals are written. -/
inductive Stored.Same : Stored → Stored → Prop
  | leaf {a b : Leaf} (h : a.SameValue b) : Same (.leaf a) (.leaf b)
  | message (w : Wire) : Same (.message w) (.message w)
  | list {xs ys : List Stored} (h : List.Forall₂ Same xs ys) : Same (.list xs) (.list ys)

/-- The columnar format. It gives back the values of a tag's type. -/
structure Arrow (κ : Type) where
  put : Tag → Stored → Option κ
  fetch : Tag → κ → Stored
  exact : ∀ tag s, tag.Takes s → ∃ k, put tag s = some k ∧ (fetch tag k).Same s

end Format

section Columns

variable {κ : Type}

/-- The cells of a column in one file, and the tag they were written under. -/
structure ColumnSegment (κ : Type) where
  tag : Tag
  cells : List κ

/-- A column: its tag, and its segments from the oldest on. -/
structure Column (κ : Type) where
  tag : Tag := .null
  segments : List (ColumnSegment κ) := []

/-- What happens to a column. -/
inductive ColumnEvent
  /-- Values are written to a new segment. -/
  | write (vs : List Decoded)
  /-- The segments become one. -/
  | compact

variable (A : Arrow κ) (textOf : Leaf → Text)

/-- One cell. -/
def cellOf (tag : Tag) (v : Decoded) : Except ColumnErr κ := do
  let s ← storable textOf tag v
  match A.put tag s with
  | some k => .ok k
  | none => .error .refused

/-- The cells of some values. -/
def array (tag : Tag) (vs : List Decoded) : Except ColumnErr (List κ) := vs.mapM (cellOf A textOf tag)

/-- The value of a cell. -/
def valueOf (tag : Tag) (k : κ) : Except ColumnErr Decoded := semantic tag (A.fetch tag k)

/-- The cells of a segment under the present tag. -/
def readSegment (tag : Tag) (seg : ColumnSegment κ) : Except ColumnErr (List κ) :=
  if seg.tag = tag then .ok seg.cells
  else do
    let vs ← seg.cells.mapM (valueOf A seg.tag)
    array A textOf tag vs

namespace Column

/-- Write a segment, under a tag that holds its values. -/
def write (c : Column κ) (vs : List Decoded) : Except ColumnErr (Column κ) := do
  let tag := widen c.tag vs
  let cells ← array A textOf tag vs
  pure { tag := tag, segments := c.segments ++ [⟨tag, cells⟩] }

/-- The cells of all segments under the present tag. -/
def cells (c : Column κ) : Except ColumnErr (List κ) := do
  let parts ← c.segments.mapM (readSegment A textOf c.tag)
  pure parts.flatten

/-- Make one segment of several. -/
def compact (c : Column κ) : Except ColumnErr (Column κ) :=
  if c.segments.length ≤ 1 then .ok c
  else do
    let cells ← c.cells A textOf
    pure { c with segments := [⟨c.tag, cells⟩] }

def step (c : Column κ) : ColumnEvent → Except ColumnErr (Column κ)
  | .write vs => c.write A textOf vs
  | .compact => c.compact A textOf

def run (events : List ColumnEvent) : Except ColumnErr (Column κ) :=
  events.foldlM (step A textOf) {}

/-- The values of a column. -/
def read (c : Column κ) : Except ColumnErr (List Decoded) := do
  let cells ← c.cells A textOf
  cells.mapM (valueOf A c.tag)

end Column

def ColumnEvent.values : ColumnEvent → List Decoded
  | .write vs => vs
  | .compact => []

/-- The values some events write. -/
def valuesWritten (events : List ColumnEvent) : List Decoded := events.flatMap ColumnEvent.values

end Columns

section Contents

/-- What a value is in a column: an integer is a float in a column of floats, and
    nothing else changes. -/
def coerce : Tag → Decoded → Decoded
  -- The rows of a list column are promoted one by one.
  | .list inner, v =>
    match v with
    | .list items => .list (items.map (coerce inner))
    | v => v
  | tag, v =>
    match v with
    | .leaf l => .leaf (coerceLeaf tag l)
    | v => v

/-- What a column is to hold: no files, and no cells. -/
structure Contents where
  tag : Tag := .null
  segments : List (List Decoded) := []

namespace Contents

/-- The values under the present tag. -/
def read (x : Contents) : List Decoded := x.segments.flatten.map (coerce x.tag)

def write (x : Contents) (vs : List Decoded) : Contents :=
  let tag := widen x.tag vs
  { tag := tag, segments := x.segments ++ [vs.map (coerce tag)] }

def compact (x : Contents) : Contents :=
  if x.segments.length ≤ 1 then x else { x with segments := [x.read] }

def step (x : Contents) : ColumnEvent → Contents
  | .write vs => x.write vs
  | .compact => x.compact

def run (events : List ColumnEvent) : Contents := events.foldl step {}

end Contents

/-- Two values compare equal. A NaN counts as equal to itself. -/
inductive Decoded.Equal : Decoded → Decoded → Prop
  | same (d : Decoded) : Equal d d
  | leaf {a b : Leaf} (h : a.sameKey b = true) : Equal (.leaf a) (.leaf b)
  | list {xs ys : List Decoded} (h : List.Forall₂ Equal xs ys) : Equal (.list xs) (.list ys)

/-- The integers of a value are floats as well, those inside lists too. -/
def Decoded.Exact : Decoded → Prop
  | .leaf (.int i) => Double.ofInt i = .finite i
  | .list items => ExactItems items
  | _ => True
where
  ExactItems : List Decoded → Prop
    | [] => True
    | d :: ds => d.Exact ∧ ExactItems ds

end Contents

section Yielded

def WireLeaf.Fits : WireLeaf → Prop
  | .int i => -2 ^ 63 ≤ i ∧ i < 2 ^ 64
  | _ => True

/-- The integers of a message have 64 bits. -/
def Wire.Fits : Wire → Prop
  | .leaf w => w.Fits
  | .ext _ _ => True
  | .array items => FitItems items
  | .map entries => FitEntries entries
where
  FitItems : List Wire → Prop
    | [] => True
    | w :: ws => w.Fits ∧ FitItems ws
  FitEntries : List (WireLeaf × Wire) → Prop
    | [] => True
    | (k, w) :: es => k.Fits ∧ w.Fits ∧ FitEntries es

/-- A value that decoding a record payload can yield. The values of a mirror are
    such values, which leaves out tuples and integers of more than 64 bits. -/
def Yielded (v : Decoded) : Prop :=
  ∃ payload ds, payload.Fits ∧ decodePayload payload = .ok ds ∧ v ∈ ds

/-- A value with no blob in it. -/
def Decoded.Inline : Decoded → Prop
  | .blob _ => False
  | .list items => InlineItems items
  | .dict entries => InlineEntries entries
  | _ => True
where
  InlineItems : List Decoded → Prop
    | [] => True
    | d :: ds => d.Inline ∧ InlineItems ds
  InlineEntries : List (Leaf × Decoded) → Prop
    | [] => True
    | (_, d) :: es => d.Inline ∧ InlineEntries es

end Yielded

end DataCrystal
