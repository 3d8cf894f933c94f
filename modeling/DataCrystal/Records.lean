import DataCrystal.Errors

/-!
# Stored Records

What the store keeps of an entity: its field values in schema order, under the
OID, with the id of the field shape they were written in.

A payload is modelled by the values it decodes to, so encoding and decoding it
again is the identity. What the encoding loses is modelled: references become
tokens naming an OID, a tuple becomes a list, and a value the codec refuses
raises.

A class may own several field shapes, one for every time its fields changed. A
record stays readable through the field list it was written with: `recordRow`
reads a field by name, and a field its shape lacks takes the class's fill.

## Main definitions

* `Token`: A reference inside a payload.
* `StoredRecord`: One stored record.
* `recordRow`: The value of every field of a class in a stored record.
* `Lineage`: The shapes a class ever had.
-/

namespace DataCrystal

/-- A reference inside a payload: an entity by its OID, or bytes kept out of
    line by their OID and content. -/
inductive Token
  | ref (oid : Nat)
  | blob (oid : Nat) (content : List Nat)
  deriving DecidableEq, Repr

/-- One stored record. -/
structure StoredRecord where
  oid : Nat
  cid : Nat
  tid : Nat
  payload : List (Val Token)
  deriving DecidableEq

instance : Inhabited StoredRecord := ⟨⟨0, 0, 0, []⟩⟩

/-- The shapes a class ever had: a shape id and its field names, oldest first. -/
abbrev Lineage := List (Nat × List String)

/-- The value at the position of a name, in a payload of the given shape. -/
def persistedValue (persisted : List String) (payload : List (Val Token)) (name : String) :
    Val Token :=
  payload.getD (persisted.idxOf name) .none

/-- The value of a field in a stored record: from its position, or the fill of
    a field the shape lacks. -/
def recordRow (ti : TypeInfo) (persisted : List String) (payload : List (Val Token))
    (name : String) : Val Token :=
  if persisted.contains name then persistedValue persisted payload name
  else (ti.fill name).getD .none

end DataCrystal
