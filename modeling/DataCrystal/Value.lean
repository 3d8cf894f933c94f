import Mathlib.Data.Rat.Defs
import Mathlib.Algebra.Order.Ring.Rat
import Mathlib.Data.String.Basic
import DataCrystal.Lib.Bisect

/-!
# Values

The values a field can hold, with the equality and the ordering the store's
host language gives them.

A scalar remembers what it was written as, so `1`, `True` and `1.0` are three
different scalars: they encode to different payload bytes. They are one
dictionary key, though, since they compare equal and hash alike, and every
index is a dictionary. `Scalar.key` is the quotient: two scalars share a key
exactly when a dictionary cannot tell them apart. A NaN is found in a
dictionary by identity only, so its key carries the object.

`Key.ltAs` is the `<` of the language. It answers within one family of keys
and raises across families: a string is not orderable against a number, nor a
naive datetime against an aware one. NaN is where a key does not say enough.
Beside a float, an int or a bool, a float NaN answers `False` to every
comparison; as soon as one of the two objects is a `Decimal`, the comparison
raises, whichever of them is the NaN. So the comparison is told whether a
`Decimal` takes part, and a dictionary remembers it of each key it holds.
`orderedOn_family` says that inside a family, NaN set aside, the comparison is
a strict total order; it is what makes bisection over a sorted run correct.

Every NaN here is quiet. A signaling one is a `Decimal` that neither hashes
nor compares, not even for equality, and it is not a value of this model.

A value tree is generic in what a reference is. A live field holds entities
and handles, a decoded payload holds OID tokens and a snapshot holds public
refs; the three trees differ in their leaves and in the container they make of
a sequence, and in nothing else.

## Main definitions

* `Number`, `Scalar`: Leaf values, with the type they were written as.
* `Key`: Scalars up to dictionary equality.
* `Key.ltAs`, `Scalar.lt`: The ordering of the language on keys and scalars.
* `Key.lt`: The ordering where no `Decimal` takes part.
* `Val`: A value tree over a type of references.
* `Val.same`: Identity or equality, as containers compare.
* `Val.pyEq`: Equality.
* `Val.identical`: Equality of the encoded bytes.
* `Val.lookupKey`: The dictionary key a value is looked up as.

## Theorems

* `orderedOn_family`: Keys of one family are strictly totally ordered.
* `Key.ltAs_eq`: Away from NaN it does not matter what the objects are.
* `Val.same_scalar_iff`: Scalars are the same when their keys agree.
-/

namespace DataCrystal

/-- The exceptions a comparison or a dictionary lookup can raise. -/
inductive ValueErr
  | typeError
  | invalidOperation
  deriving DecidableEq, Repr

/-- The number types; they compare and hash as one. -/
inductive NumKind
  | bool
  | int
  | float
  | decimal
  deriving DecidableEq, Repr

/-- A number: finite, infinite, or a quiet NaN with the object it is. A
    signaling NaN is left out. -/
inductive Number
  | fin (q : ℚ)
  | inf (negative : Bool)
  | nan (obj : Nat)
  deriving DecidableEq, Repr

/-- The date and time types. An aware value is its instant, so two offsets of
    one instant are one value. -/
inductive TemporalKind
  | naiveDatetime
  | awareDatetime
  | date
  | naiveTime
  | awareTime
  deriving DecidableEq, Repr

/-- A leaf value, with the type it was written as. -/
inductive Scalar
  | num (kind : NumKind) (n : Number)
  | str (s : String)
  | bytes (b : List Nat)
  | temporal (kind : TemporalKind) (t : ℤ)
  deriving DecidableEq, Repr

/-- A scalar up to dictionary equality. -/
inductive Key
  | fin (q : ℚ)
  | inf (negative : Bool)
  | nan (obj : Nat)
  | str (s : String)
  | bytes (b : List Nat)
  | temporal (kind : TemporalKind) (t : ℤ)
  deriving DecidableEq, Repr

instance : LawfulBEq (Option Key) := inferInstance

/-- The families of mutually orderable keys; NaN is its own. -/
inductive Family
  | number
  | nan
  | str
  | bytes
  | temporal (kind : TemporalKind)
  deriving DecidableEq, Repr

namespace Key

/-- The family a key belongs to. -/
def family : Key → Family
  | .fin _ => .number
  | .inf _ => .number
  | .nan _ => .nan
  | .str _ => .str
  | .bytes _ => .bytes
  | .temporal k _ => .temporal k

/-- `a < b`, or the exception the comparison raises; `decimal` says that one of
    the two objects is a `Decimal`. -/
def ltAs (decimal : Bool) : Key → Key → Except ValueErr Bool
  | .fin p, .fin q => .ok (p < q)
  | .fin _, .inf negative => .ok !negative
  | .inf negative, .fin _ => .ok negative
  | .inf a, .inf b => .ok (a && !b)
  -- A NaN of floats answers, one beside a decimal raises.
  | .nan _, b =>
    match b.family with
    | .number => if decimal then .error .invalidOperation else .ok false
    | .nan => if decimal then .error .invalidOperation else .ok false
    | _ => .error .typeError
  | a, .nan _ =>
    match a.family with
    | .number => if decimal then .error .invalidOperation else .ok false
    | _ => .error .typeError
  | .str s, .str t => .ok (s < t)
  | .bytes b, .bytes c => .ok (b < c)
  -- Naive and aware datetimes do not compare, nor does a date with a time.
  | .temporal k s, .temporal k' t => if k = k' then .ok (s < t) else .error .typeError
  | _, _ => .error .typeError

/-- `a < b` where no `Decimal` takes part. -/
def lt : Key → Key → Except ValueErr Bool := ltAs false

/-- The comparison of keys of which some are `Decimal` objects. -/
def ltOf (decimals : Key → Bool) (a b : Key) : Except ValueErr Bool :=
  ltAs (decimals a || decimals b) a b

/-- `isinstance(key, datetime)`. -/
def isDatetime : Key → Bool
  | .temporal .naiveDatetime _ => true
  | .temporal .awareDatetime _ => true
  | _ => false

/-- Only a NaN asks whether a `Decimal` takes part. -/
theorem ltAs_eq (decimal : Bool) {a b : Key} (ha : a.family ≠ .nan) (hb : b.family ≠ .nan) :
    ltAs decimal a b = lt a b := by
  cases a <;> cases b <;> simp_all [family, lt, ltAs]

/-- Inside a family the objects do not matter. -/
theorem ltOf_eq (decimals : Key → Bool) {fam : Family} (hfam : fam ≠ .nan) {a b : Key}
    (ha : a.family = fam) (hb : b.family = fam) : ltOf decimals a b = lt a b :=
  ltAs_eq _ (ha ▸ hfam) (hb ▸ hfam)

/-- The order of the numbers that are not NaN. -/
theorem orderedOn_number : OrderedOn lt (fun k => k.family = .number) := by
  constructor
  · intro a b ha hb
    cases a <;> cases b <;> simp [family] at ha hb <;> simp only [lt, ltAs, Except.ok.injEq] <;>
      exact Bool.eq_false_or_eq_true _
  · intro a ha
    cases a <;> simp [family] at ha <;> simp [lt, ltAs]
  · intro a b c ha hb hc hab hbc
    cases a <;> cases b <;> cases c <;> simp [family] at ha hb hc <;> simp [lt, ltAs] at hab hbc ⊢ <;>
      grind
  · intro a b ha hb hab hba
    cases a <;> cases b <;> simp [family] at ha hb <;> simp [lt, ltAs] at hab hba ⊢
    · exact le_antisymm hba hab
    · rw [hab] at hba
      simp at hba
    · rw [hab] at hba
      simp at hba
    · rename_i p q
      cases p <;> cases q <;> simp at hab hba ⊢

/-- A family whose keys are strictly totally ordered: any but NaN. -/
theorem orderedOn_family (fam : Family) (hfam : fam ≠ .nan) :
    OrderedOn lt (fun k => k.family = fam) := by
  cases fam with
  | nan => exact absurd rfl hfam
  | number => exact orderedOn_number
  | str =>
      refine OrderedOn.of_linear Key.str (fun a ha => ?_) fun s t => ?_
      · cases a <;> simp [family] at ha
        exact ⟨_, rfl⟩
      · exact congrArg Except.ok (decide_eq_decide.mpr Iff.rfl)
  | bytes =>
      refine OrderedOn.of_linear Key.bytes (fun a ha => ?_) fun b c => ?_
      · cases a <;> simp [family] at ha
        exact ⟨_, rfl⟩
      · exact congrArg Except.ok (decide_eq_decide.mpr Iff.rfl)
  | temporal kind =>
      refine OrderedOn.of_linear (Key.temporal kind) (fun a ha => ?_) fun s t => ?_
      · cases a <;> simp [family] at ha
        exact ⟨_, by rw [ha]⟩
      · exact (if_pos rfl).trans (congrArg Except.ok (decide_eq_decide.mpr Iff.rfl))

/-- Inside a family the comparison is a strict total order, whatever the objects
    are. -/
theorem orderedOn_ltOf (decimals : Key → Bool) (fam : Family) (hfam : fam ≠ .nan) :
    OrderedOn (ltOf decimals) (fun k => k.family = fam) :=
  (orderedOn_family fam hfam).congr fun _ _ ha hb => ltOf_eq decimals hfam ha hb

/-- A run of one family is ascending or not, whatever the objects are. -/
theorem ascending_ltOf (decimals : Key → Bool) {fam : Family} (hfam : fam ≠ .nan) {run : List Key}
    (hrun : ∀ k ∈ run, k.family = fam) : Ascending (ltOf decimals) run ↔ Ascending lt run :=
  ascending_congr fun a ha b hb => ltOf_eq decimals hfam (hrun a ha) (hrun b hb)

end Key

namespace Scalar

/-- The dictionary key of a scalar: the number types share one. -/
def key : Scalar → Key
  | .num _ (.fin q) => .fin q
  | .num _ (.inf negative) => .inf negative
  | .num _ (.nan obj) => .nan obj
  | .str s => .str s
  | .bytes b => .bytes b
  | .temporal kind t => .temporal kind t

/-- An `int`. -/
def int (i : ℤ) : Scalar := .num .int (.fin i)

/-- A `bool`. -/
def bool (b : Bool) : Scalar := .num .bool (.fin (if b then 1 else 0))

/-- `isinstance(value, Decimal)`. -/
def isDecimal : Scalar → Bool
  | .num .decimal _ => true
  | _ => false

/-- `a < b`, or the exception the comparison raises. -/
def lt (s t : Scalar) : Except ValueErr Bool := Key.ltAs (s.isDecimal || t.isDecimal) s.key t.key

/-- Whether a scalar is a NaN, which no equality accepts. -/
def isNan : Scalar → Bool
  | .num _ (.nan _) => true
  | _ => false

/-- The integer a scalar stands for, if it is one. -/
def toInt? : Scalar → Option ℤ
  | .num _ (.fin q) => if q.den = 1 then some q.num else none
  | _ => none

@[simp]
theorem toInt?_int (i : ℤ) : (int i).toInt? = some i := by
  simp [int, toInt?]

/-- Away from NaN scalars compare as their keys do. -/
theorem lt_eq {s t : Scalar} (hs : s.key.family ≠ .nan) (ht : t.key.family ≠ .nan) :
    s.lt t = s.key.lt t.key :=
  Key.ltAs_eq _ hs ht

@[simp]
theorem key_str (s : String) : (str s).key = .str s := rfl

@[simp]
theorem key_int (i : ℤ) : (int i).key = .fin i := rfl

end Scalar

/-- The containers a sequence can be. -/
inductive SeqKind
  | list
  | tuple
  deriving DecidableEq, Repr

/-- A value tree whose references are of type `ρ`. -/
inductive Val (ρ : Type)
  | none
  | scalar (s : Scalar)
  | leaf (r : ρ)
  | seq (kind : SeqKind) (items : List (Val ρ))
  | dict (items : List (Scalar × Val ρ))

namespace Val

variable {ρ : Type}

instance : Inhabited (Val ρ) := ⟨.none⟩

/-- An `int` value. -/
def int (i : ℤ) : Val ρ := .scalar (.int i)

/-- A `bool` value. -/
def bool (b : Bool) : Val ρ := .scalar (.bool b)

/-- A `list[int]` value. -/
def ints (xs : List ℤ) : Val ρ := .seq .list (xs.map int)

/-- Whether two values are the same object or equal, which is how a container
    compares its items. Sequences of different kinds differ, and a dictionary
    compares by content, whatever the order of its keys. -/
def same [DecidableEq ρ] : Val ρ → Val ρ → Bool
  | .none, .none => true
  | .scalar s, .scalar t => s.key = t.key
  | .leaf r, .leaf r' => r = r'
  | .seq k xs, .seq k' ys => k = k' && sameItems xs ys
  | .dict xs, .dict ys => xs.length = ys.length && sameEntries xs ys
  | _, _ => false
where
  sameItems : List (Val ρ) → List (Val ρ) → Bool
    | [], [] => true
    | x :: xs, y :: ys => x.same y && sameItems xs ys
    | _, _ => false
  sameEntries : List (Scalar × Val ρ) → List (Scalar × Val ρ) → Bool
    | [], _ => true
    | (k, x) :: xs, ys =>
      (match ys.find? fun e => e.1.key = k.key with
        | some e => x.same e.2
        | .none => false) && sameEntries xs ys

/-- `a == b`: a NaN equals nothing, not even itself. -/
def pyEq [DecidableEq ρ] : Val ρ → Val ρ → Bool
  | .scalar s, .scalar t => s.key = t.key && !s.isNan
  | v, w => v.same w

/-- Whether a value is hashable: every value but a list, a dictionary and a
    tuple that holds one. -/
def hashable : Val ρ → Bool
  | .seq .list _ => false
  | .seq .tuple xs => hashableItems xs
  | .dict _ => false
  | _ => true
where
  hashableItems : List (Val ρ) → Bool
    | [] => true
    | x :: xs => x.hashable && hashableItems xs

/-- The key a value is looked up as in a dictionary of scalars: `none` when
    it hashes but equals no scalar, an exception when it does not hash. The
    inner `none` is the key `None`. -/
def lookupKey (v : Val ρ) : Except ValueErr (Option (Option Key)) :=
  match v with
  | .none => .ok (some Option.none)
  | .scalar s => .ok (some (some s.key))
  | _ => if v.hashable then .ok Option.none else .error .typeError

/-- `a < b`: only scalars order, and sequences item by item. -/
def pyLt [DecidableEq ρ] : Val ρ → Val ρ → Except ValueErr Bool
  | .scalar s, .scalar t => s.lt t
  | .seq k xs, .seq k' ys => if k = k' then ltItems xs ys else .error .typeError
  | _, _ => .error .typeError
where
  /-- Sequences order at their first differing item. -/
  ltItems : List (Val ρ) → List (Val ρ) → Except ValueErr Bool
    | [], [] => .ok false
    | [], _ :: _ => .ok true
    | _ :: _, [] => .ok false
    | x :: xs, y :: ys => if x.same y then ltItems xs ys else x.pyLt y

/-- The integer a value stands for, if it is one. -/
def toInt? : Val ρ → Option ℤ
  | .scalar s => s.toInt?
  | _ => Option.none

/-- The integers a list value holds, if it is a list of them. -/
def toInts? : Val ρ → Option (List ℤ)
  | .seq _ xs => xs.mapM toInt?
  | _ => Option.none

@[simp]
theorem toInt?_int (i : ℤ) : (int i : Val ρ).toInt? = some i := Scalar.toInt?_int i

@[simp]
theorem toInts?_ints (xs : List ℤ) : (ints xs : Val ρ).toInts? = some xs := by
  induction xs with
  | nil => rfl
  | cons x xs ih =>
      simp only [ints, toInts?, List.map_cons, List.mapM_cons, toInt?_int] at ih ⊢
      rw [ih]
      rfl

@[simp]
theorem same_scalar_iff [DecidableEq ρ] (s t : Scalar) :
    (Val.scalar s : Val ρ).same (.scalar t) = true ↔ s.key = t.key := by
  simp [same]

section Identity

variable [DecidableEq ρ]

/-- Whether two values are encoded to the same bytes. -/
def identical : Val ρ → Val ρ → Bool
  | .none, .none => true
  | .scalar s, .scalar t => s = t
  | .leaf r, .leaf r' => r = r'
  | .seq k xs, .seq k' ys => k = k' && identicalItems xs ys
  | .dict xs, .dict ys => identicalEntries xs ys
  | _, _ => false
where
  identicalItems : List (Val ρ) → List (Val ρ) → Bool
    | [], [] => true
    | x :: xs, y :: ys => x.identical y && identicalItems xs ys
    | _, _ => false
  identicalEntries : List (Scalar × Val ρ) → List (Scalar × Val ρ) → Bool
    | [], [] => true
    | (k, x) :: xs, (k', y) :: ys => k = k' && x.identical y && identicalEntries xs ys
    | _, _ => false

theorem identical_iff : ∀ v w : Val ρ, v.identical w = true ↔ v = w
  | .none, w => by cases w <;> simp [identical]
  | .scalar s, w => by cases w <;> simp [identical]
  | .leaf r, w => by cases w <;> simp [identical]
  | .seq k xs, w => by
      cases w with
      | seq k' ys => simp [identical, items xs ys]
      | _ => simp [identical]
  | .dict xs, w => by
      cases w with
      | dict ys => simp [identical, entries xs ys]
      | _ => simp [identical]
where
  items : ∀ xs ys : List (Val ρ), identical.identicalItems xs ys = true ↔ xs = ys
    | [], ys => by cases ys <;> simp [identical.identicalItems]
    | x :: xs, [] => by simp [identical.identicalItems]
    | x :: xs, y :: ys => by
        simp [identical.identicalItems, identical_iff x y, items xs ys]
  entries : ∀ xs ys : List (Scalar × Val ρ), identical.identicalEntries xs ys = true ↔ xs = ys
    | [], ys => by cases ys <;> simp [identical.identicalEntries]
    | (k, x) :: xs, [] => by simp [identical.identicalEntries]
    | (k, x) :: xs, (k', y) :: ys => by
        simp [identical.identicalEntries, identical_iff x y, entries xs ys]

instance : DecidableEq (Val ρ) := fun v w => decidable_of_iff _ (identical_iff v w)

end Identity

end Val

end DataCrystal
