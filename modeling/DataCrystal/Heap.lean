import DataCrystal.Errors
import DataCrystal.Records

/-!
# Live Entities

The entity objects of a session. An object has an identity of its own, its
index in the heap, and no OID until a store registers it; several objects may
carry one OID, an instance held across a `discard()` beside the one read
afterwards.

A field holds a value tree whose leaves refer to objects directly, through a
lazy handle, or to bytes kept out of line. A lazy handle made from an entity
has a target and no OID; one the engine made has an OID, and a target once it
has loaded.

Two fields of an object are not in the program. `stampedBy` is the uid that
was acting when the object was registered and `hydrated` tells an object the
engine read from one the application made. Nothing in the model reads them;
they are there to say what a run did.

## Main definitions

* `EntityState`: The lifecycle states.
* `LiveRef`: What a field refers to.
* `Entity`, `Heap`: The objects of a session.
* `Val.leaves`: The references of a value, in order.
* `Val.encode`: A live value as a payload value.
-/

namespace DataCrystal

/-- The lifecycle of an entity object. -/
inductive EntityState
  /-- Constructed in this process, not yet committed. -/
  | new
  /-- In sync with the store; the write hook is armed. -/
  | clean
  /-- Changed since the last commit. -/
  | dirty
  /-- Deleted: reads work, writes raise. -/
  | deleted
  deriving DecidableEq, Repr

/-- What opening a source of bytes yields, and whether it raises after that. -/
structure Opening where
  chunks : List (List Nat)
  raises : Bool := false
  deriving DecidableEq, Repr

/-- What a field of a live entity refers to. -/
inductive LiveRef
  | entity (obj : Nat)
  | lazy (oid : Option Nat) (target : Option Nat)
  /-- A handle on bytes stored under an OID. -/
  | blob (oid : Nat) (content : List Nat)
  /-- Bytes to be streamed into the store: the size that is declared, and what the
      source yields when it is opened next. -/
  | source (size : Nat) (next : Opening)
  deriving DecidableEq, Repr

/-- The labels of a fresh record before it is registered. -/
def freshLabels : Labels := ⟨0, [], viewer, viewer⟩

/-- One entity object. -/
structure Entity where
  cls : String
  oid : Option Nat := none
  state : EntityState := .new
  /-- The declared fields. -/
  data : String → Val LiveRef := fun _ => .none
  /-- The label columns; read on a protected class only. -/
  labels : Labels := freshLabels
  /-- The containers are bound to the object, so a change of them is a write. -/
  bound : Bool := true
  stampedBy : Option ℤ := none
  hydrated : Bool := false
  /-- A stand-in for a record the principal may not read: it has no OID and no
      fields. -/
  redacted : Bool := false

instance : Inhabited Entity := ⟨{ cls := "" }⟩

/-- `getattr(obj, name)`. -/
def Entity.field (e : Entity) (name : String) : Val LiveRef :=
  (e.labels.column name).getD (e.data name)

/-- The objects of a session, by identity. -/
structure Heap where
  size : Nat
  get : Nat → Entity

namespace Heap

def empty : Heap := ⟨0, fun _ => default⟩

/-- Replace one object. -/
def set (h : Heap) (o : Nat) (e : Entity) : Heap := { h with get := Function.update h.get o e }

/-- Make a new object. -/
def push (h : Heap) (e : Entity) : Heap := ⟨h.size + 1, Function.update h.get h.size e⟩

variable (h : Heap) (o n : Nat) (e : Entity)

@[simp]
theorem size_set : (h.set o e).size = h.size := rfl

@[simp]
theorem size_push : (h.push e).size = h.size + 1 := rfl

theorem get_set : (h.set o e).get n = if n = o then e else h.get n :=
  Function.update_apply h.get o e n

theorem get_push : (h.push e).get n = if n = h.size then e else h.get n :=
  Function.update_apply h.get h.size e n

@[simp]
theorem get_set_self : (h.set o e).get o = e := by rw [get_set, if_pos rfl]

theorem get_set_ne {o n : Nat} (hn : n ≠ o) : (h.set o e).get n = h.get n := by
  rw [get_set, if_neg hn]

end Heap

namespace Val

variable {ρ τ : Type}

/-- The references of a value in the order a walk meets them; the keys of a
    dictionary refer to nothing. -/
def leaves : Val ρ → List ρ
  | .leaf r => [r]
  | .seq _ xs => itemLeaves xs
  | .dict xs => entryLeaves xs
  | _ => []
where
  itemLeaves : List (Val ρ) → List ρ
    | [] => []
    | x :: xs => x.leaves ++ itemLeaves xs
  entryLeaves : List (Scalar × Val ρ) → List ρ
    | [] => []
    | (_, x) :: xs => x.leaves ++ entryLeaves xs

/-- Rewrite the references of a value, left to right. -/
def mapLeaves {m : Type → Type} [Monad m] (f : ρ → m τ) : Val ρ → m (Val τ)
  | .none => pure .none
  | .scalar s => pure (.scalar s)
  | .leaf r => do
    let t ← f r
    -- Lists and tuples alike; the kind goes along.
    pure (.leaf t)
  | .seq k xs => do
    let ys ← mapItems xs
    pure (.seq k ys)
  | .dict xs => do
    let ys ← mapEntries xs
    pure (.dict ys)
where
  mapItems : List (Val ρ) → m (List (Val τ))
    | [] => pure []
    | x :: xs => do
      let y ← mapLeaves f x
      let ys ← mapItems xs
      pure (y :: ys)
  mapEntries : List (Scalar × Val ρ) → m (List (Scalar × Val τ))
    | [] => pure []
    | (k, x) :: xs => do
      let y ← mapLeaves f x
      let ys ← mapEntries xs
      pure ((k, y) :: ys)

/-- The encoding has one kind of sequence, which decodes to a list, and no
    integer outside 64 bits. -/
def storable : Val ρ → Except Err (Val ρ)
  | .scalar s =>
    match s with
    | .num .int (.fin q) =>
      -- What the encoder takes: signed or unsigned, in eight bytes.
      if -2 ^ 63 ≤ q ∧ q < 2 ^ 64 then .ok (.scalar s) else .error .unstorable
    | _ => .ok (.scalar s)
  -- A tuple comes back as a list.
  | .seq _ xs => (storableItems xs).map (.seq .list)
  | .dict xs => (storableEntries xs).map .dict
  | v => .ok v
where
  storableItems : List (Val ρ) → Except Err (List (Val ρ))
    | [] => .ok []
    | x :: xs =>
      match storable x with
      | .error e => .error e
      | .ok y => (storableItems xs).map fun ys => y :: ys
  storableEntries : List (Scalar × Val ρ) → Except Err (List (Scalar × Val ρ))
    | [] => .ok []
    | (k, x) :: xs =>
      match storable (.scalar k), storable x with
      | .ok _, .ok y => (storableEntries xs).map fun ys => (k, y) :: ys
      | .error e, _ => .error e
      | _, .error e => .error e

/-- A live value as the payload value it is read back as. -/
def encode (f : ρ → Except Err τ) (v : Val ρ) : Except Err (Val τ) :=
  match mapLeaves f v with
  | .ok w => storable w
  | .error e => .error e

end Val

end DataCrystal
