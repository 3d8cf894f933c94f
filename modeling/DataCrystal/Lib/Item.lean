import Mathlib.Data.Int.Notation
import Mathlib.Data.List.Infix
import DataCrystal.Lib.Frames

/-!
# Decoded Documents

A document that was decoded without a schema is a tree of plain values, and a
program that reads it finds out about each value when it uses it: whether it can
be iterated, whether it is a number, whether it can be a key. A use the value does
not allow raises, and `none` stands for that here.

A dictionary takes `True` and `1` for one key, so keys are what is left of a value
when the two are not told apart.

## Main definitions

* `Item`: A decoded value.
* `Item.Key`: What a dictionary tells apart.
* `Item.iter`, `Item.number`, `Item.key`: What a value can be used as.
* `lookup`: The value under a name in a map.
-/

namespace DataCrystal

/-- A value of a decoded document. -/
inductive Item
  | nil
  | bool (b : Bool)
  | int (n : ℤ)
  | str (s : String)
  | bin (bs : Bytes)
  | array (xs : List Item)
  | map (entries : List (Item × Item))

instance : Inhabited Item := ⟨.nil⟩

/-- The value under a name. -/
def lookup (name : String) : List (Item × Item) → Option Item
  | [] => none
  | (.str s, v) :: rest => if s = name then some v else lookup name rest
  | _ :: rest => lookup name rest

namespace Item

/-- What a dictionary tells apart. -/
inductive Key
  | nil
  | int (n : ℤ)
  | str (s : String)
  | bin (bs : Bytes)
  deriving DecidableEq

/-- A value as a key. Lists and dictionaries have no hash. -/
def key : Item → Option Key
  | .nil => some .nil
  | .bool b => some (.int b.toInt)
  | .int n => some (.int n)
  | .str s => some (.str s)
  | .bin bs => some (.bin bs)
  | .array _ => none
  | .map _ => none

/-- A value that can be compared with a number. -/
def number : Item → Option ℤ
  | .bool b => some b.toInt
  | .int n => some n
  | _ => none

/-- What a loop over a value comes to. -/
def iter : Item → Option (List Item)
  | .str s => some (s.toList.map fun c => .str (String.singleton c))
  | .bin bs => some (bs.map fun b => .int b.toNat)
  | .array xs => some xs
  | .map entries => some (entries.map Prod.fst)
  | _ => none

/-- Whether a value is a text. -/
def is (text : String) : Item → Bool
  | .str s => s = text
  | _ => false

/-- Whether a name is in a value: a key of a map, an entry of a list, a part of a text. -/
def holds (name : String) : Item → Option Bool
  | .map entries => some (lookup name entries).isSome
  | .array xs => some (xs.any (is name))
  | .str s => some (name.toList <:+: s.toList)
  | _ => none

/-- The value under a name. Only maps have names. -/
def get? (name : String) : Item → Option Item
  | .map entries => lookup name entries
  | _ => none

/-- Whether a value is the bytes that are held, or nothing where nothing is. -/
def same : Item → Option Bytes → Bool
  | .nil, none => true
  | .bin bs, some held => bs = held
  | _, _ => false

/-- The bytes a value is. -/
def bytes? : Item → Option Bytes
  | .bin bs => some bs
  | _ => none

theorem is_iff {text : String} {x : Item} : x.is text = true ↔ x = .str text := by
  unfold is
  cases x with
  | str s => simp
  | _ => simp

end Item

end DataCrystal
