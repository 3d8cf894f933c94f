import Mathlib.Algebra.Order.Ring.Int
import Mathlib.Algebra.Order.Ring.Abs
import DataCrystal.Columns
import DataCrystal.RoundTrip

/-!
# Promotion

The tags of columns are ordered by what they hold, and the tag of two columns
together is the least that holds both. A column whose tag is widened holds what it
held before, with one exception: an integer in a column of floats is a float.

The proof compares a column, with its segments and cells, to the values it is to
hold. The cells of a segment are those of its values under the segment's tag, and
that stays so when they are stored again under a wider one. A value that is
encoded as a message comes back as it was.

## Main definitions

* `Tag.Holds`: What a tag holds.
* `Encodable`: The values that a message gives back.
* `Decoded.SameValue`: Values that are the same up to how decimals are written.
* `Column.Represents`: A column holds the values it is to hold.

## Theorems

* `unify_comm`, `unify_assoc`: The least common tag.
* `Tag.Holds.unify`: A wider tag holds what the narrower one did.
* `Encodable.returns`: A message gives its value back.
* `cellOf_spec`: What a cell gives back.
* `run_represents`: A column holds what it is to hold, whatever happens to it.
* `read_represents`: It is read as that.
-/

namespace DataCrystal

section Lattice

/-- Tags of one kind have a common tag of that kind, or none but the last resort. -/
def Tag.kind : Tag → Nat
  | .null => 0
  -- Booleans, integers and floats meet in one kind.
  | .bool => 1
  | .int => 1
  | .float => 1
  -- Decimals of any scale, and lists of anything.
  | .decimal _ => 2
  | .list _ => 3
  | .fallback => 4
  | .str => 5
  | .bytes => 6
  | .ref => 7
  | .ts => 8
  | .tsUtc => 9
  | .date => 10
  | .time => 11

@[simp]
theorem unify_self (a : Tag) : unify a a = a := by
  unfold unify
  rw [if_pos rfl]

@[simp]
theorem null_unify (b : Tag) : unify .null b = b := by
  cases b <;> simp [unify]

@[simp]
theorem unify_null (a : Tag) : unify a .null = a := by
  cases a <;> simp [unify]

theorem unify_of_kind_ne {a b : Tag} (h : a.kind ≠ b.kind) (ha : a ≠ .null) (hb : b ≠ .null) :
    unify a b = .fallback := by
  cases a <;> cases b <;> simp_all [unify, numericRank, Tag.kind]

@[simp]
theorem fallback_unify (b : Tag) : unify .fallback b = .fallback := by
  by_cases hb : b = .null
  · rw [hb, unify_null]
  by_cases hkind : Tag.fallback.kind = b.kind
  · cases b <;> simp [Tag.kind] at hkind
    exact unify_self _
  · exact unify_of_kind_ne hkind (by simp) hb

@[simp]
theorem unify_fallback (a : Tag) : unify a .fallback = .fallback := by
  by_cases ha : a = .null
  · rw [ha, null_unify]
  by_cases hkind : a.kind = Tag.fallback.kind
  · cases a <;> simp [Tag.kind] at hkind
    exact unify_self _
  · exact unify_of_kind_ne hkind ha (by simp)

theorem decimalTagOf_self (d : DecimalTag) :
    decimalTagOf d.integerDigits d.scale d.integerDigits_pos = .decimal d := by
  have hint := d.integer
  have hmost := d.most
  have hsum : d.integerDigits + d.scale = d.precision := by
    unfold DecimalTag.integerDigits
    omega
  unfold decimalTagOf
  rw [dif_pos (by omega)]
  cases d with
  | mk precision scale integer most =>
      simp only [Tag.decimal.injEq, DecimalTag.mk.injEq, and_true]
      exact hsum

/-- The shortcut for equal tags makes no difference to decimals. -/
theorem unify_decimal (a b : DecimalTag) :
    unify (.decimal a) (.decimal b) = unifyDecimalTags a b := by
  unfold unify
  by_cases h : a = b
  · rw [if_pos (by rw [h]), h]
    unfold unifyDecimalTags
    simp only [Nat.max_self]
    exact (decimalTagOf_self b).symm
  · rw [if_neg (by simpa using h)]

theorem decimalTagOf_congr {i i' s s' : Nat} {h : 0 < i} {h' : 0 < i'} (hi : i = i') (hs : s = s') :
    decimalTagOf i s h = decimalTagOf i' s' h' := by
  subst hi
  subst hs
  rfl

/-- The limit on the digits is the same whether two tags meet or three. -/
theorem decimalTagOf_unify (i s : Nat) (h : 0 < i) (c : DecimalTag) :
    unify (decimalTagOf i s h) (.decimal c) =
      decimalTagOf (max i c.integerDigits) (max s c.scale) (by omega) := by
  by_cases hmost : i + s ≤ decimalMaxPrecision
  · have hleft : decimalTagOf i s h = .decimal ⟨i + s, s, by omega, hmost⟩ := by
      unfold decimalTagOf
      rw [dif_pos hmost]
    rw [hleft, unify_decimal]
    unfold unifyDecimalTags
    refine decimalTagOf_congr ?_ rfl
    unfold DecimalTag.integerDigits
    dsimp only
    omega
  · have hleft : decimalTagOf i s h = .fallback := by
      unfold decimalTagOf
      rw [dif_neg hmost]
    have hright : ¬max i c.integerDigits + max s c.scale ≤ decimalMaxPrecision := by omega
    rw [hleft, fallback_unify]
    unfold decimalTagOf
    rw [dif_neg hright]

theorem unifyDecimalTags_comm (a b : DecimalTag) : unifyDecimalTags a b = unifyDecimalTags b a :=
  decimalTagOf_congr (Nat.max_comm _ _) (Nat.max_comm _ _)

@[simp]
theorem listOf_fallback : listOf .fallback = .fallback := rfl

theorem listOf_of_ne {x : Tag} (h : x ≠ .fallback) : listOf x = .list x := if_neg h

/-- Lists meet in what their items meet in. -/
theorem unify_list {x y : Tag} (h : ¬(x = .fallback ∧ y = .fallback)) :
    unify (.list x) (.list y) = listOf (unify x y) := by
  by_cases hxy : x = y
  · have hx : x ≠ .fallback := fun hx => h ⟨hx, hxy ▸ hx⟩
    rw [← hxy, unify_self, unify_self, listOf_of_ne hx]
  · conv_lhs => unfold unify
    rw [if_neg (by simpa using hxy)]

theorem listOf_unify (x z : Tag) : unify (listOf x) (.list z) = listOf (unify x z) := by
  by_cases hx : x = .fallback
  · rw [hx, listOf_fallback, fallback_unify, fallback_unify, listOf_fallback]
  · rw [listOf_of_ne hx, unify_list fun h => hx h.1]

/-- The least common tag does not depend on the order. -/
theorem unify_comm (a : Tag) : ∀ b, unify a b = unify b a := by
  induction a with
  | list x ih =>
      intro b
      cases b with
      | list y =>
          by_cases h : x = .fallback ∧ y = .fallback
          · rw [h.1, h.2]
          · rw [unify_list h, unify_list fun h' => h h'.symm, ih y]
      | null => rw [unify_null, null_unify]
      | _ => rfl
  | decimal d =>
      intro b
      cases b with
      | decimal e => rw [unify_decimal, unify_decimal, unifyDecimalTags_comm]
      | null => rw [unify_null, null_unify]
      | _ => rfl
  | _ => intro b; cases b <;> rfl

theorem unify_listOf (x z : Tag) : unify (.list x) (listOf z) = listOf (unify x z) := by
  rw [unify_comm, listOf_unify, unify_comm]

/-- What two tags of a kind have in common is of the kind. -/
theorem kind_unify {a b : Tag} (h : a.kind = b.kind) :
    unify a b = .fallback ∨ (unify a b).kind = a.kind := by
  cases a <;> cases b <;> simp [Tag.kind] at h
  case decimal.decimal d e =>
      rw [unify_decimal]
      unfold unifyDecimalTags decimalTagOf
      split
      · exact Or.inr rfl
      · exact Or.inl rfl
  case list.list x y =>
      by_cases hxy : x = .fallback ∧ y = .fallback
      · rw [hxy.1, hxy.2, unify_self]
        exact Or.inr rfl
      · rw [unify_list hxy]
        unfold listOf
        split
        · exact Or.inl rfl
        · exact Or.inr rfl
  all_goals exact Or.inr rfl

/-- A common tag is no empty one, unless both are. -/
theorem unify_ne_null {a b : Tag} (h : a.kind = b.kind) (ha : a ≠ .null) : unify a b ≠ .null := by
  intro hnull
  rcases kind_unify h with hfall | hkind
  · rw [hnull] at hfall
    cases hfall
  · rw [hnull] at hkind
    cases a <;> simp [Tag.kind] at hkind ha

/-- A tag of another kind than two has nothing in common with what they have. -/
theorem unify_unify_of_kind_ne {a b c : Tag} (h : a.kind = b.kind) (hc : a.kind ≠ c.kind)
    (ha : a ≠ .null) (hnull : c ≠ .null) : unify (unify a b) c = .fallback := by
  rcases kind_unify h with hfall | hkind
  · rw [hfall, fallback_unify]
  · exact unify_of_kind_ne (by rw [hkind]; exact hc) (unify_ne_null h ha) hnull

/-- Only tags of one kind are to be checked for associativity. -/
theorem unify_assoc_of_kind {a b c : Tag}
    (h : a.kind = b.kind → b.kind = c.kind → unify (unify a b) c = unify a (unify b c)) :
    unify (unify a b) c = unify a (unify b c) := by
  by_cases ha : a = .null
  · rw [ha, null_unify, null_unify]
  by_cases hb : b = .null
  · rw [hb, unify_null, null_unify]
  by_cases hc : c = .null
  · rw [hc, unify_null, unify_null]
  by_cases hab : a.kind = b.kind
  · by_cases hbc : b.kind = c.kind
    · exact h hab hbc
    · rw [unify_of_kind_ne hbc hb hc, unify_fallback]
      exact unify_unify_of_kind_ne hab (by rw [hab]; exact hbc) ha hc
  · rw [unify_of_kind_ne hab ha hb, fallback_unify]
    by_cases hbc : b.kind = c.kind
    · rw [unify_comm a]
      exact (unify_unify_of_kind_ne hbc (fun h => hab h.symm) hb ha).symm
    · rw [unify_of_kind_ne hbc hb hc, unify_fallback]

theorem unify_assoc_decimal (a b c : DecimalTag) :
    unify (unify (.decimal a) (.decimal b)) (.decimal c) =
      unify (.decimal a) (unify (.decimal b) (.decimal c)) := by
  rw [unify_comm (.decimal a) (unify (.decimal b) (.decimal c)), unify_decimal, unify_decimal]
  unfold unifyDecimalTags
  rw [decimalTagOf_unify, decimalTagOf_unify]
  exact decimalTagOf_congr (by omega) (by omega)

/-- The least common tag does not depend on the grouping. -/
theorem unify_assoc (a : Tag) : ∀ b c, unify (unify a b) c = unify a (unify b c) := by
  induction a with
  | list x ih =>
      intro b c
      refine unify_assoc_of_kind fun hab hbc => ?_
      cases b <;> simp [Tag.kind] at hab hbc
      case list y =>
      cases c <;> simp at hbc
      case list z =>
      -- Items with no tag but the last resort are in no column of lists.
      by_cases hxy : x = .fallback ∧ y = .fallback
      · rw [hxy.1, hxy.2, unify_self]
        by_cases hz : z = .fallback
        · rw [hz, unify_self, unify_self]
        · rw [unify_list fun h => hz h.2, fallback_unify, listOf_fallback, unify_fallback]
      by_cases hyz : y = .fallback ∧ z = .fallback
      · rw [hyz.1, hyz.2, unify_self]
        have hx : x ≠ .fallback := fun hx => hxy ⟨hx, hyz.1⟩
        rw [unify_list fun h => hx h.1, unify_fallback, listOf_fallback, fallback_unify]
      · rw [unify_list hxy, unify_list hyz, listOf_unify, unify_listOf, ih y z]
  | decimal d =>
      intro b c
      refine unify_assoc_of_kind fun hab hbc => ?_
      cases b <;> simp [Tag.kind] at hab hbc
      case decimal e =>
      cases c <;> simp at hbc
      exact unify_assoc_decimal _ _ _
  | bool | int | float =>
      intro b c
      refine unify_assoc_of_kind fun hab hbc => ?_
      cases b <;> simp [Tag.kind] at hab hbc <;> cases c <;> simp at hbc <;> rfl
  | _ =>
      intro b c
      refine unify_assoc_of_kind fun hab hbc => ?_
      cases b <;> simp [Tag.kind] at hab hbc
      cases c <;> simp at hbc
      simp

end Lattice

section Holding

/-- What a tag holds: nothing, and what can be stored under it as one of its type. -/
def Tag.Holds : Tag → Decoded → Prop
  | .ref, v => v = .leaf .none ∨ ∃ n, v = .ref n ∧ IsOid n
  | .fallback, _ => True
  | .list inner, v => v = .leaf .none ∨ ∃ items, v = .list items ∧ ∀ d ∈ items, inner.Holds d
  | tag, v => v = .leaf .none ∨ ∃ l, v = .leaf l ∧ tag.Types (coerceLeaf tag l)

theorem Tag.holds_none (t : Tag) : t.Holds (.leaf .none) := by
  cases t <;> simp [Holds]

theorem Tag.fallback_holds (v : Decoded) : Tag.fallback.Holds v := trivial

theorem Tag.holds_list_of {x : Tag} {v : Decoded} (h : (Tag.list x).Holds v) :
    (listOf x).Holds v := by
  unfold listOf
  split
  · exact fallback_holds v
  · exact h

/-- A decimal fits as many digits on either side of the point, or more. -/
theorem DecimalTag.Covers.mono {d e : DecimalTag} {q : ℚ} (h : d.Covers q)
    (hint : d.integerDigits ≤ e.integerDigits) (hscale : d.scale ≤ e.scale) : e.Covers q := by
  rcases h with ⟨u, hu, hlt⟩
  have hd := d.integer
  have he := e.integer
  unfold integerDigits at hint
  refine ⟨u * 10 ^ (e.scale - d.scale), ?_, ?_⟩
  · push_cast
    rw [← hu, mul_assoc, ← pow_add, Nat.add_sub_cancel' hscale]
  · have hpos : (0 : ℤ) < 10 ^ (e.scale - d.scale) := pow_pos (by decide) _
    rw [abs_mul, abs_of_pos hpos]
    calc |u| * 10 ^ (e.scale - d.scale)
        < 10 ^ d.precision * 10 ^ (e.scale - d.scale) := mul_lt_mul_of_pos_right hlt hpos
      _ = 10 ^ (d.precision + (e.scale - d.scale)) := (pow_add _ _ _).symm
      _ ≤ 10 ^ e.precision := pow_le_pow_right₀ (by decide) (by omega)

/-- What fits a number of digits has the tag of these, unless there are too many. -/
theorem Tag.holds_decimalTagOf {i s : Nat} {h : 0 < i} {negative : Bool} {c : Nat} {e : ℤ}
    (hfits : ∀ d : DecimalTag, d.integerDigits = i → d.scale = s →
      d.Covers (Decimal.value negative c e)) :
    (decimalTagOf i s h).Holds (.leaf (.decimal (.finite negative c e))) := by
  unfold decimalTagOf
  split
  · refine Or.inr ⟨_, rfl, ?_⟩
    change DecimalTag.Covers _ _
    refine hfits _ ?_ rfl
    unfold DecimalTag.integerDigits
    exact Nat.add_sub_cancel _ _
  · exact fallback_holds _

theorem Tag.types_int_of_bool {l : Leaf} (h : Tag.bool.Types (coerceLeaf .bool l)) :
    Tag.int.Types (coerceLeaf .int l) := by
  cases l with
  | bool b => cases b <;> simp [coerceLeaf, Types]
  | _ => exact absurd h id

theorem Tag.types_float_of_int {l : Leaf} (h : Tag.int.Types (coerceLeaf .int l)) :
    Tag.float.Types (coerceLeaf .float l) := by
  cases l with
  | bool b => trivial
  | int i => trivial
  | _ => exact absurd h id

/-- A number is one under a wider tag. -/
theorem Tag.holds_leaf_of {a b : Tag} {v : Decoded}
    (hleaf : ∀ {l}, a.Types (coerceLeaf a l) → b.Types (coerceLeaf b l))
    (ha : a.Holds v ↔ v = .leaf .none ∨ ∃ l, v = .leaf l ∧ a.Types (coerceLeaf a l))
    (hb : b.Holds v ↔ v = .leaf .none ∨ ∃ l, v = .leaf l ∧ b.Types (coerceLeaf b l))
    (h : a.Holds v) : b.Holds v := by
  rcases ha.mp h with h | ⟨l, h, hl⟩
  · exact hb.mpr (Or.inl h)
  · exact hb.mpr (Or.inr ⟨l, h, hleaf hl⟩)

/-- A wider tag holds what the narrower one did. -/
theorem Tag.Holds.unify {a : Tag} : ∀ (b : Tag) {v : Decoded}, a.Holds v → (unify a b).Holds v := by
  induction a with
  -- A list holds a value if each item is held, so the items unify one by one.
  | list x ih =>
      intro b v h
      cases b with
      | list y =>
          by_cases hxy : x = .fallback ∧ y = .fallback
          · rw [hxy.1, hxy.2, unify_self]
            rw [hxy.1] at h
            exact h
          · rw [unify_list hxy]
            refine holds_list_of ?_
            rcases h with h | ⟨items, h, hitems⟩
            · exact Or.inl h
            · exact Or.inr ⟨items, h, fun d hd => ih y (hitems d hd)⟩
      | null =>
          rw [unify_null]
          exact h
      | _ => exact fallback_holds v
  -- A decimal column takes the wider scale and the wider range.
  | decimal d =>
      intro b v h
      cases b with
      | decimal e =>
          rw [unify_decimal]
          rcases h with rfl | ⟨l, rfl, hl⟩
          · exact holds_none _
          · cases l with
            | decimal x =>
                cases x with
                | finite negative c exponent =>
                    refine holds_decimalTagOf fun f hint hscale => ?_
                    exact DecimalTag.Covers.mono hl (by omega) (by omega)
                | _ => exact absurd hl id
            | _ => exact absurd hl id
      | null =>
          rw [unify_null]
          exact h
      | _ => exact fallback_holds v
  | null =>
      intro b v h
      rcases h with rfl | ⟨l, -, hl⟩
      · exact holds_none _
      · exact absurd hl id
  -- Numbers go up to a float, and anything else together is the fallback.
  | bool | int | float =>
      intro b v h
      cases b <;> first
        | exact fallback_holds v
        | exact h
        | exact holds_leaf_of types_int_of_bool Iff.rfl Iff.rfl h
        | exact holds_leaf_of types_float_of_int Iff.rfl Iff.rfl h
        | exact holds_leaf_of (fun hl => types_float_of_int (types_int_of_bool hl)) Iff.rfl Iff.rfl h
  | _ =>
      intro b v h
      cases b <;> first
        | exact fallback_holds v
        | exact h

theorem Tag.Holds.unify_right {b : Tag} (a : Tag) {v : Decoded} (h : b.Holds v) :
    (DataCrystal.unify a b).Holds v := by
  rw [unify_comm]
  exact h.unify a

theorem Tag.Holds.widen {t : Tag} {v : Decoded} (h : t.Holds v) (vs : List Decoded) :
    (widen t vs).Holds v := by
  induction vs generalizing t with
  | nil => exact h
  | cons w vs ih => exact ih (h.unify (tagOf w))

/-- A column holds the values it was widened by. -/
theorem holds_widen {v : Decoded} {vs : List Decoded} (hmem : v ∈ vs) (hv : (tagOf v).Holds v)
    (t : Tag) : (widen t vs).Holds v := by
  induction vs generalizing t with
  | nil => exact absurd hmem List.not_mem_nil
  | cons w vs ih =>
      rcases List.mem_cons.mp hmem with rfl | hmem
      · exact Tag.Holds.widen (hv.unify_right t) vs
      · exact ih hmem (unify t (tagOf w))

theorem tagOf_list (items : List Decoded) : tagOf (.list items) = listOf (widen .null items) := by
  have hfold : ∀ (ds : List Decoded) (t : Tag),
      (tagOf.tagsOf ds).foldl unify t = widen t ds := by
    intro ds
    induction ds with
    | nil => exact fun t => rfl
    | cons d ds ih => exact fun t => ih (unify t (tagOf d))
  rw [tagOf, hfold]

end Holding

section Messages

variable {textOf : Leaf → Text}

/-- A key that a message gives back. -/
def Leaf.EncodableKey (l : Leaf) : Prop := l.isText = false ∧ l.normal = l ∧ l.Fits

/-- The values that a message gives back. -/
inductive Encodable : Decoded → Prop
  | leaf {l : Leaf} (hnormal : l.normal = l) (hfits : l.Fits) : Encodable (.leaf l)
  | ref {n : ℤ} (h : IsOid n) : Encodable (.ref n)
  | ext {code : Nat} {data : Bytes} (h : extHook code data = .ok (.ext code data)) :
      Encodable (.ext code data)
  | list {items : List Decoded} (h : ∀ d ∈ items, Encodable d) : Encodable (.list items)
  | dict {entries : List (Leaf × Decoded)} (hkeys : ∀ e ∈ entries, e.1.EncodableKey)
      (hdistinct : (entries.map Prod.fst).Pairwise fun a b => a.sameKey b = false)
      (h : ∀ e ∈ entries, Encodable e.2) : Encodable (.dict entries)

/-- A value goes to a message and comes back. -/
def Comes (textOf : Leaf → Text) (d : Decoded) : Prop :=
  ∃ n w, reswizzle d = .ok n ∧ encodeNative textOf n = .ok w ∧ decode w = .ok d

theorem comes_leaf {l : Leaf} (hnormal : l.normal = l) (hfits : l.Fits) :
    Comes textOf (.leaf l) := by
  by_cases htext : l.isText = true
  · rcases extHook_swizzleLeaf htext with ⟨code, data, hleaf, hhook⟩
    exact ⟨_, .ext code data, by rw [reswizzle, hleaf], rfl, by rw [decode, hhook]⟩
  · rw [Bool.not_eq_true] at htext
    have hleaf : swizzleLeaf l = .leaf l := by
      cases l <;> first | rfl | cases htext
    rcases (@encodeLeaf_ok_iff textOf l).mpr hfits with ⟨w, hw⟩
    refine ⟨_, .leaf w, by rw [reswizzle, hleaf], ?_, ?_⟩
    · rw [encodeNative, hw]
      rfl
    · rw [decode, decodeLeaf_encodeLeaf htext hw, hnormal]

theorem comes_items {ds : List Decoded} (h : ∀ d ∈ ds, Comes textOf d) :
    ∃ ns ws, reswizzle.reswizzleItems ds = .ok ns ∧ encodeNative.encodeItems textOf ns = .ok ws ∧
      decode.decodeItems ws = .ok ds := by
  induction ds with
  | nil => exact ⟨[], [], rfl, rfl, rfl⟩
  | cons d ds ih =>
      rcases h d List.mem_cons_self with ⟨n, w, hn, hw, hd⟩
      rcases ih fun d' hd' => h d' (List.mem_cons_of_mem d hd') with ⟨ns, ws, hns, hws, hds⟩
      refine ⟨n :: ns, w :: ws, ?_, ?_, ?_⟩
      · rw [reswizzle.reswizzleItems, hn, hns]
        rfl
      · rw [encodeNative.encodeItems, hw, hws]
        rfl
      · rw [decode.decodeItems, hd, hds]
        rfl

theorem comes_entries {es : List (Leaf × Decoded)} (hkeys : ∀ e ∈ es, e.1.EncodableKey)
    (h : ∀ e ∈ es, Comes textOf e.2) :
    ∃ ns ws, reswizzle.reswizzleEntries es = .ok ns ∧
      encodeNative.encodeEntries textOf ns = .ok ws ∧ decode.decodeEntries ws = .ok es := by
  induction es with
  | nil => exact ⟨[], [], rfl, rfl, rfl⟩
  | cons e es ih =>
      rcases h e List.mem_cons_self with ⟨n, w, hn, hw, hd⟩
      rcases hkeys e List.mem_cons_self with ⟨htext, hnormal, hfits⟩
      rcases (@encodeLeaf_ok_iff textOf e.1).mpr hfits with ⟨k, hk⟩
      rcases ih (fun f hf => hkeys f (List.mem_cons_of_mem e hf))
        (fun f hf => h f (List.mem_cons_of_mem e hf)) with ⟨ns, ws, hns, hws, hds⟩
      refine ⟨(e.1, n) :: ns, (k, w) :: ws, ?_, ?_, ?_⟩
      · rw [reswizzle.reswizzleEntries, hn, hns]
        rfl
      · rw [encodeNative.encodeEntries, hk, hw, hws]
        rfl
      · rw [decode.decodeEntries, hd, hds, decodeLeaf_encodeLeaf htext hk, hnormal]
        rfl

variable (textOf)

/-- A message gives its value back. -/
theorem Encodable.comes {d : Decoded} (h : Encodable d) : Comes textOf d := by
  induction h with
  | leaf hnormal hfits => exact comes_leaf hnormal hfits
  | ref hoid =>
      exact ⟨_, _, refExt_ok_iff.mpr ⟨hoid, rfl⟩, rfl, extHook_ref hoid⟩
  | ext hhook => exact ⟨_, _, rfl, rfl, hhook⟩
  | list _ ih =>
      rcases comes_items ih with ⟨ns, ws, hns, hws, hds⟩
      refine ⟨.list ns, .array ws, ?_, ?_, ?_⟩
      · rw [reswizzle, hns]
        rfl
      · rw [encodeNative, hws]
        rfl
      · rw [decode, hds]
        rfl
  | dict hkeys hdistinct _ ih =>
      rcases comes_entries hkeys ih with ⟨ns, ws, hns, hws, hds⟩
      refine ⟨.dict ns, .map ws, ?_, ?_, ?_⟩
      · rw [reswizzle, hns]
        rfl
      · rw [encodeNative, hws]
        rfl
      · rw [decode, hds]
        change Except.ok (Decoded.dict (buildDict _)) = _
        rw [buildDict_of_distinct hdistinct]

theorem Encodable.returns {d : Decoded} (h : Encodable d) :
    ∃ w, encodeFallback textOf d = .ok w ∧ decode w = .ok d := by
  rcases h.comes textOf with ⟨n, w, hn, hw, hd⟩
  exact ⟨w, by rw [encodeFallback, hn]; exact hw, hd⟩

end Messages

section Cells

variable {κ : Type} {A : Arrow κ} {textOf : Leaf → Text}

/-- Values that are the same up to how decimals are written. -/
inductive Decoded.SameValue : Decoded → Decoded → Prop
  | same (d : Decoded) : SameValue d d
  | leaf {a b : Leaf} (h : a.SameValue b) : SameValue (.leaf a) (.leaf b)
  | list {xs ys : List Decoded} (h : List.Forall₂ SameValue xs ys) : SameValue (.list xs) (.list ys)

@[simp]
theorem Leaf.SameValue.refl (l : Leaf) : l.SameValue l := Or.inl rfl

theorem Leaf.SameValue.trans {a b c : Leaf} (h : a.SameValue b) (h' : b.SameValue c) :
    a.SameValue c := by
  rcases h with rfl | ⟨s, m, e, s', m', e', rfl, rfl, hvalue⟩
  · exact h'
  · rcases h' with rfl | ⟨s₁, m₁, e₁, s'', m'', e'', heq, rfl, hvalue'⟩
    · exact Or.inr ⟨s, m, e, s', m', e', rfl, rfl, hvalue⟩
    · cases heq
      exact Or.inr ⟨s, m, e, s'', m'', e'', rfl, rfl, hvalue.trans hvalue'⟩

theorem Leaf.SameValue.coerce {a b : Leaf} (h : a.SameValue b) (t : Tag) :
    (coerceLeaf t a).SameValue (coerceLeaf t b) := by
  rcases h with rfl | ⟨s, m, e, s', m', e', rfl, rfl, hvalue⟩
  · exact .refl _
  · cases t <;> exact Or.inr ⟨s, m, e, s', m', e', rfl, rfl, hvalue⟩

/-- A type has decimals by their numbers. -/
theorem Leaf.SameValue.types {a b : Leaf} (h : a.SameValue b) {t : Tag} (hb : t.Types b) :
    t.Types a := by
  rcases h with rfl | ⟨s, m, e, s', m', e', rfl, rfl, hvalue⟩
  · exact hb
  · cases t with
    | decimal d =>
        change d.Covers _ at hb ⊢
        rw [hvalue]
        exact hb
    | _ => exact absurd hb id

theorem Leaf.SameValue.of_none {l : Leaf} (h : Leaf.none.SameValue l) : l = .none := by
  rcases h with h | ⟨s, m, e, s', m', e', h, -⟩
  · exact h.symm
  · cases h

theorem Leaf.SameValue.none {l : Leaf} (h : l.SameValue .none) : l = .none := by
  rcases h with h | ⟨s, m, e, s', m', e', -, h, -⟩
  · exact h
  · cases h

theorem Decoded.SameValue.of_leaf {l : Leaf} {v : Decoded} (h : (Decoded.leaf l).SameValue v) :
    ∃ m, v = .leaf m ∧ l.SameValue m := by
  cases h with
  | same => exact ⟨l, rfl, .refl l⟩
  | leaf h => exact ⟨_, rfl, h⟩

theorem Decoded.SameValue.of_none {v : Decoded} (h : (Decoded.leaf .none).SameValue v) :
    v = .leaf .none := by
  rcases h.of_leaf with ⟨m, rfl, hm⟩
  rw [hm.of_none]

theorem Decoded.SameValue.of_list {xs : List Decoded} {v : Decoded} (h : (Decoded.list xs).SameValue v) :
    ∃ ys, v = .list ys ∧ List.Forall₂ Decoded.SameValue xs ys := by
  cases h with
  | same => exact ⟨xs, rfl, List.forall₂_same.mpr fun x _ => .same x⟩
  | list h => exact ⟨_, rfl, h⟩

theorem Stored.Same.absent {s : Stored} (h : s.Same .absent) : s = .absent := by
  cases h with
  | leaf h => rw [h.none]; rfl

/-- The scalars of a type can be encoded. -/
theorem Tag.Types.encodable {t : Tag} {l : Leaf} (h : t.Types l) : Encodable (.leaf l) := by
  cases t <;> cases l <;> first
    | exact absurd h id
    | exact .leaf rfl trivial
    | skip
  · exact .leaf rfl ⟨h.1, by have := h.2; omega⟩
  · cases h
    exact .leaf rfl trivial

/-- What a stored value gives back: the value it is to be, which can be stored again. -/
def GivesBack (t : Tag) (v : Decoded) (s : Stored) : Prop :=
  ∃ w, semantic t s = .ok w ∧ w.SameValue (coerce t v) ∧ Encodable w ∧ t.Holds w

/-- A value that a tag holds can be stored under it, and comes back, from the cell
    that was written and from any other that is the same up to how its decimals are
    written. -/
def Preserves (textOf : Leaf → Text) (t : Tag) (w v : Decoded) : Prop :=
  ∃ s, storable textOf t w = .ok s ∧ t.Takes s ∧ ∀ s', s'.Same s → GivesBack t v s'

theorem coerce_none (t : Tag) : coerce t (.leaf .none) = .leaf .none := by
  cases t <;> rfl

/-- Nothing is stored as nothing. -/
theorem preserves_none (t : Tag) {v : Decoded} (h : (Decoded.leaf .none).SameValue v) :
    Preserves textOf t (.leaf .none) v := by
  have hstored : storable textOf t (.leaf .none) = .ok .absent := by
    cases t <;> rfl
  have htakes : t.Takes .absent := by
    cases t <;> exact Or.inl rfl
  have hback : semantic t .absent = .ok (.leaf .none) := by
    cases t <;> rfl
  refine ⟨.absent, hstored, htakes, fun s' hsame => ⟨.leaf .none, ?_, ?_, ?_, t.holds_none⟩⟩
  · rw [hsame.absent, hback]
  · rw [h.of_none, coerce_none]
    exact .same _
  · exact .leaf rfl trivial

/-- A scalar under a tag of scalars. The equations say what the tag does to scalars. -/
theorem preserves_leaf {t : Tag} {l : Leaf} {v : Decoded}
    (hstored : storable textOf t (.leaf l) = .ok (.leaf (coerceLeaf t l)))
    (htakes : ∀ s, t.Takes s ↔ s = .absent ∨ ∃ l, s = .leaf l ∧ t.Types l)
    (hsemantic : ∀ l, semantic t (.leaf l) = .ok (.leaf l))
    (hcoerce : ∀ l, coerce t (.leaf l) = .leaf (coerceLeaf t l))
    (hholds : ∀ l, t.Types (coerceLeaf t l) → t.Holds (.leaf l))
    (hidem : ∀ l, t.Types l → coerceLeaf t l = l)
    (htypes : t.Types (coerceLeaf t l)) (h : (Decoded.leaf l).SameValue v) :
    Preserves textOf t (.leaf l) v := by
  refine ⟨_, hstored, (htakes _).mpr (Or.inr ⟨_, rfl, htypes⟩), fun s' hsame => ?_⟩
  rcases h.of_leaf with ⟨m, rfl, hm⟩
  cases hsame with
  | @leaf a b ha =>
      have hta : t.Types a := ha.types htypes
      refine ⟨.leaf a, hsemantic a, ?_, hta.encodable, hholds a ?_⟩
      · rw [hcoerce]
        exact .leaf (ha.trans (hm.coerce t))
      · rw [hidem a hta]
        exact hta

/-- A reference is stored as its number. -/
theorem preserves_ref {n : ℤ} (hoid : IsOid n) {v : Decoded} (h : (Decoded.ref n).SameValue v) :
    Preserves textOf .ref (.ref n) v := by
  refine ⟨.leaf (.int n), rfl, Or.inr ⟨n, rfl, hoid⟩, fun s' hsame => ?_⟩
  cases h
  cases hsame with
  | @leaf a b ha =>
      have hint : a = .int n := by
        rcases ha with ha | ⟨s, m, e, s', m', e', -, ha, -⟩
        · exact ha
        · cases ha
      rw [hint]
      exact ⟨.ref n, rfl, .same _, .ref hoid, Or.inr ⟨n, rfl, hoid⟩⟩

/-- Any value is stored as a message. -/
theorem preserves_message {w v : Decoded} (hw : Encodable w) (h : w.SameValue v) :
    Preserves textOf .fallback w v := by
  by_cases hnone : w = .leaf .none
  · rw [hnone] at h ⊢
    exact preserves_none _ h
  · rcases hw.returns textOf with ⟨m, hm, hd⟩
    refine ⟨.message m, ?_, Or.inr ⟨m, rfl⟩, fun s' hsame => ?_⟩
    · have hstored : storable textOf .fallback w =
          ((encodeFallback textOf w).map .message).mapError .codec := by
        unfold storable
        split
        · exact absurd rfl hnone
        · rfl
      rw [hstored, hm]
      rfl
    · cases hsame
      refine ⟨w, ?_, ?_, hw, trivial⟩
      · rw [semantic, hd]
        rfl
      · have hid : coerce .fallback v = v := by
          cases v with
          | leaf l => cases l <;> rfl
          | _ => rfl
        rw [hid]
        exact h

/-- The items of a list, each stored under the inner tag. -/
theorem preserves_items {inner : Tag} {ws vs : List Decoded}
    (h : List.Forall₂ (Preserves textOf inner) ws vs) :
    ∃ cells, ws.mapM (storable textOf inner) = .ok cells ∧ (∀ c ∈ cells, inner.Takes c) ∧
      ∀ cells', List.Forall₂ Stored.Same cells' cells → ∃ us,
        cells'.mapM (semantic inner) = .ok us ∧
        List.Forall₂ Decoded.SameValue us (vs.map (coerce inner)) ∧
        ∀ u ∈ us, Encodable u ∧ inner.Holds u := by
  induction h with
  | nil =>
      refine ⟨[], rfl, fun c hc => absurd hc List.not_mem_nil, fun cells' h => ?_⟩
      cases h
      exact ⟨[], rfl, .nil, fun u hu => absurd hu List.not_mem_nil⟩
  | @cons w v ws vs hone _ ih =>
      rcases hone with ⟨s, hs, htakes, hback⟩
      rcases ih with ⟨cells, hcells, hall, hrest⟩
      refine ⟨s :: cells, ?_, ?_, fun cells' h => ?_⟩
      · rw [List.mapM_cons, hs, hcells]
        rfl
      · exact List.forall_mem_cons.mpr ⟨htakes, hall⟩
      · cases h with
        | @cons s' _ cells' _ hsame hsames =>
            rcases hback s' hsame with ⟨u, hu, halike, henc, hholds⟩
            rcases hrest cells' hsames with ⟨us, hus, halikes, hencs⟩
            refine ⟨u :: us, ?_, .cons halike halikes, List.forall_mem_cons.mpr
              ⟨⟨henc, hholds⟩, hencs⟩⟩
            rw [List.mapM_cons, hu, hus]
            rfl

/-- A value that a tag holds is preserved under it. -/
theorem preserves_of_holds (t : Tag) : ∀ {w v : Decoded}, t.Holds w → Encodable w → w.SameValue v →
    Preserves textOf t w v := by
  -- A null goes through every column. Otherwise the tag says what the cell is made of.
  induction t with
  | ref =>
      intro w v hholds henc h
      rcases hholds with rfl | ⟨n, rfl, hoid⟩
      · exact preserves_none _ h
      · exact preserves_ref hoid h
  | fallback => exact fun _ henc h => preserves_message henc h
  | list inner ih =>
      intro w v hholds henc h
      rcases hholds with rfl | ⟨items, rfl, hitems⟩
      · exact preserves_none _ h
      -- The items of a list go through one by one, and so does the list.
      rcases h.of_list with ⟨items', rfl, halikes⟩
      cases henc with
      | list henc =>
          have hall : List.Forall₂ (Preserves textOf inner) items items' :=
            ((List.forall₂_and_left _ _).mpr ⟨fun d hd => hd, halikes⟩).imp
              fun d d' hd => ih (hitems d hd.1) (henc d hd.1) hd.2
          rcases preserves_items hall with ⟨cells, hcells, htakes, hback⟩
          refine ⟨.list cells, ?_, Or.inr ⟨cells, rfl, htakes⟩, fun s' hsame => ?_⟩
          · rw [storable, hcells]
            rfl
          · cases hsame with
            | list hsames =>
                rcases hback _ hsames with ⟨us, hus, halike, hall⟩
                refine ⟨.list us, ?_, .list halike, .list fun u hu => (hall u hu).1,
                  Or.inr ⟨us, rfl, fun u hu => (hall u hu).2⟩⟩
                rw [semantic, hus]
                rfl
  | bytes =>
      intro w v hholds henc h
      rcases hholds with rfl | ⟨l, rfl, htypes⟩
      · exact preserves_none _ h
      · cases l with
        | bytes b =>
            exact preserves_leaf rfl (fun _ => Iff.rfl) (fun _ => rfl) (fun _ => rfl)
              (fun l hl => Or.inr ⟨l, rfl, hl⟩) (fun _ _ => rfl) htypes h
        | _ => exact absurd htypes id
  | int | float =>
      intro w v hholds henc h
      rcases hholds with rfl | ⟨l, rfl, htypes⟩
      · exact preserves_none _ h
      · refine preserves_leaf rfl (fun _ => Iff.rfl) (fun _ => rfl) (fun _ => rfl)
          (fun l hl => Or.inr ⟨l, rfl, hl⟩) (fun l hl => ?_) htypes h
        cases l <;> first | rfl | exact absurd hl id
  | _ =>
      intro w v hholds henc h
      rcases hholds with rfl | ⟨l, rfl, htypes⟩
      · exact preserves_none _ h
      · exact preserves_leaf rfl (fun _ => Iff.rfl) (fun _ => rfl) (fun _ => rfl)
          (fun l hl => Or.inr ⟨l, rfl, hl⟩) (fun _ _ => rfl) htypes h

/-- A cell that is read under one tag as a value, which another tag holds. -/
def CellOf (A : Arrow κ) (s t : Tag) (k : κ) (v : Decoded) : Prop :=
  ∃ w, valueOf A s k = .ok w ∧ w.SameValue v ∧ Encodable w ∧ t.Holds w

variable (A textOf)

/-- What a cell gives back. -/
theorem cellOf_spec {t : Tag} {w v : Decoded} (hholds : t.Holds w) (henc : Encodable w)
    (h : w.SameValue v) : ∃ k, cellOf A textOf t w = .ok k ∧ CellOf A t t k (coerce t v) := by
  have hpreserves : Preserves textOf t w v := preserves_of_holds t hholds henc h
  rcases hpreserves with ⟨s, hs, htakes, hback⟩
  rcases A.exact t s htakes with ⟨k, hk, hsame⟩
  refine ⟨k, ?_, hback _ hsame⟩
  rw [cellOf]
  exact except_bind_ok_iff.mpr ⟨s, hs, by rw [hk]⟩

theorem array_spec {t : Tag} {ws vs : List Decoded}
    (h : List.Forall₂ (fun w v => w.SameValue v ∧ Encodable w ∧ t.Holds w) ws vs) :
    ∃ ks, array A textOf t ws = .ok ks ∧ List.Forall₂ (CellOf A t t) ks (vs.map (coerce t)) := by
  induction h with
  | nil => exact ⟨[], rfl, .nil⟩
  | cons hone _ ih =>
      rcases cellOf_spec A textOf hone.2.2 hone.2.1 hone.1 with ⟨k, hk, hcell⟩
      rcases ih with ⟨ks, hks, hcells⟩
      refine ⟨k :: ks, ?_, .cons hcell hcells⟩
      rw [array, List.mapM_cons, hk]
      rw [array] at hks
      rw [hks]
      rfl

theorem coerceLeaf_coerceLeaf (t : Tag) (l : Leaf) :
    coerceLeaf t (coerceLeaf t l) = coerceLeaf t l := by
  cases t <;> cases l <;> rfl

theorem coerce_coerce (t : Tag) : ∀ v, coerce t (coerce t v) = coerce t v := by
  induction t with
  | list inner ih =>
      intro v
      cases v with
      | list items =>
          change Decoded.list ((items.map (coerce inner)).map (coerce inner)) =
            .list (items.map (coerce inner))
          rw [List.map_map]
          congr 1
          exact List.map_congr_left fun d _ => ih d
      | _ => rfl
  | _ =>
      intro v
      cases v with
      | leaf l => exact congrArg Decoded.leaf (coerceLeaf_coerceLeaf _ l)
      | _ => rfl

end Cells

section Columns

variable {κ : Type} {A : Arrow κ} (textOf : Leaf → Text)

/-- A segment has the cells of some values, which the tag of the column holds. It
    was written under a tag of its own, which that one has widened. -/
structure SegmentOf (A : Arrow κ) (t : Tag) (seg : ColumnSegment κ) (vs : List Decoded) :
    Prop where
  cells : List.Forall₂ (CellOf A seg.tag t) seg.cells vs
  coerced : ∀ v ∈ vs, coerce seg.tag v = v

/-- A column holds the values it is to hold, segment by segment, and its tag is the
    one that the values written to it come to. -/
structure Column.Represents (A : Arrow κ) (c : Column κ) (x : Contents) : Prop where
  tag : c.tag = x.tag
  segments : List.Forall₂ (SegmentOf A c.tag) c.segments x.segments

theorem SegmentOf.widen {t : Tag} {seg : ColumnSegment κ} {vs : List Decoded}
    (h : SegmentOf A t seg vs) (ws : List Decoded) : SegmentOf A (widen t ws) seg vs where
  cells := h.cells.imp fun _ _ ⟨w, hw, halike, henc, hholds⟩ =>
    ⟨w, hw, halike, henc, hholds.widen ws⟩
  coerced := h.coerced

/-- The cells of a segment that is as the column is now. -/
theorem segmentOf_coerced {t : Tag} {ks : List κ} {vs : List Decoded}
    (h : List.Forall₂ (CellOf A t t) ks (vs.map (coerce t))) :
    SegmentOf A t ⟨t, ks⟩ (vs.map (coerce t)) where
  cells := h
  coerced v hv := by
    rcases List.mem_map.mp hv with ⟨u, -, rfl⟩
    exact coerce_coerce t u

/-- A segment is read under the present tag. -/
theorem readSegment_spec {t : Tag} {seg : ColumnSegment κ} {vs : List Decoded}
    (h : SegmentOf A t seg vs) : ∃ ks, readSegment A textOf t seg = .ok ks ∧
      List.Forall₂ (CellOf A t t) ks (vs.map (coerce t)) := by
  unfold readSegment
  by_cases hsame : seg.tag = t
  · have hid : vs.map (coerce t) = vs := by
      rw [← hsame]
      conv_rhs => rw [← List.map_id vs]
      exact List.map_congr_left h.coerced
    rw [if_pos hsame, hid]
    have hcells := h.cells
    rw [hsame] at hcells
    exact ⟨seg.cells, rfl, hcells⟩
  · rw [if_neg hsame]
    rcases (forall₂_comp seg.cells vs).mpr h.cells with ⟨ws, hws, hvs⟩
    rcases array_spec A textOf hvs with ⟨ks, hks, hcells⟩
    refine ⟨ks, except_bind_ok_iff.mpr ⟨ws, (except_mapM_ok_iff _ _).mpr hws, hks⟩, hcells⟩

/-- All cells of a column, under its present tag. -/
theorem cells_spec {c : Column κ} {x : Contents} (h : c.Represents A x) :
    ∃ ks, c.cells A textOf = .ok ks ∧ List.Forall₂ (CellOf A c.tag c.tag) ks x.read := by
  have hparts : ∃ parts, c.segments.mapM (readSegment A textOf c.tag) = .ok parts ∧
      List.Forall₂ (List.Forall₂ (CellOf A c.tag c.tag)) parts
        (x.segments.map (List.map (coerce c.tag))) := by
    refine h.segments.rec ⟨[], rfl, .nil⟩ ?_
    rintro seg vs segs vss hone - ⟨parts, hparts, hcells⟩
    rcases readSegment_spec textOf hone with ⟨ks, hks, hone⟩
    refine ⟨ks :: parts, ?_, .cons hone hcells⟩
    rw [List.mapM_cons, hks, hparts]
    rfl
  rcases hparts with ⟨parts, hparts, hcells⟩
  refine ⟨parts.flatten, except_bind_ok_iff.mpr ⟨parts, hparts, rfl⟩, ?_⟩
  unfold Contents.read
  rw [← h.tag, List.map_flatten]
  exact List.rel_flatten hcells

/-- What a column takes in: a value that a message gives back, and that the tag
    found for it holds. -/
def Column.Accepts (v : Decoded) : Prop := Encodable v ∧ (tagOf v).Holds v

theorem write_represents {c : Column κ} {x : Contents} (h : c.Represents A x) {vs : List Decoded}
    (hvs : ∀ v ∈ vs, Column.Accepts v) :
    ∃ c', c.write A textOf vs = .ok c' ∧ c'.Represents A (x.write vs) := by
  have hall : List.Forall₂ (fun w v => w.SameValue v ∧ Encodable w ∧ (widen c.tag vs).Holds w) vs vs :=
    List.forall₂_same.mpr fun v hv =>
      ⟨.same v, (hvs v hv).1, holds_widen hv (hvs v hv).2 c.tag⟩
  rcases array_spec A textOf hall with ⟨ks, hks, hcells⟩
  refine ⟨_, except_bind_ok_iff.mpr ⟨ks, hks, rfl⟩, ?_, ?_⟩
  · change widen c.tag vs = widen x.tag vs
    rw [h.tag]
  · change List.Forall₂ _ (c.segments ++ [⟨widen c.tag vs, ks⟩])
      (x.segments ++ [vs.map (coerce (widen x.tag vs))])
    rw [← h.tag]
    refine List.rel_append (h.segments.imp fun _ _ hone => hone.widen vs) ?_
    exact .cons (segmentOf_coerced hcells) .nil

theorem compact_represents {c : Column κ} {x : Contents} (h : c.Represents A x) :
    ∃ c', c.compact A textOf = .ok c' ∧ c'.Represents A x.compact := by
  unfold Column.compact Contents.compact
  rw [h.segments.length_eq]
  by_cases hfew : x.segments.length ≤ 1
  · rw [if_pos hfew, if_pos hfew]
    exact ⟨c, rfl, h⟩
  · rw [if_neg hfew, if_neg hfew]
    rcases cells_spec textOf h with ⟨ks, hks, hcells⟩
    refine ⟨_, except_bind_ok_iff.mpr ⟨ks, hks, rfl⟩, h.tag, .cons ?_ .nil⟩
    unfold Contents.read at hcells ⊢
    rw [← h.tag] at hcells ⊢
    exact segmentOf_coerced hcells

theorem step_represents {c : Column κ} {x : Contents} (h : c.Represents A x) (e : ColumnEvent)
    (hvs : ∀ v ∈ e.values, Column.Accepts v) :
    ∃ c', c.step A textOf e = .ok c' ∧ c'.Represents A (x.step e) := by
  cases e with
  | write vs => exact write_represents textOf h hvs
  | compact => exact compact_represents textOf h

/-- A column holds what it is to hold, whatever happens to it. -/
theorem run_represents (events : List ColumnEvent)
    (hvs : ∀ v ∈ valuesWritten events, Column.Accepts v) :
    ∃ c : Column κ, Column.run A textOf events = .ok c ∧ c.Represents A (Contents.run events) := by
  have hfrom : ∀ (es : List ColumnEvent) (c : Column κ) (x : Contents), c.Represents A x →
      (∀ v ∈ valuesWritten es, Column.Accepts v) →
      ∃ c', es.foldlM (Column.step A textOf) c = .ok c' ∧
        c'.Represents A (es.foldl Contents.step x) := by
    intro es
    induction es with
    | nil => exact fun c x h _ => ⟨c, rfl, h⟩
    | cons e es ih =>
        intro c x h hes
        have hone : ∀ v ∈ e.values, Column.Accepts v := fun v hv =>
          hes v (List.mem_flatMap.mpr ⟨e, List.mem_cons_self, hv⟩)
        have hrest : ∀ v ∈ valuesWritten es, Column.Accepts v := by
          intro v hv
          rcases List.mem_flatMap.mp hv with ⟨f, hf, hv⟩
          exact hes v (List.mem_flatMap.mpr ⟨f, List.mem_cons_of_mem e hf, hv⟩)
        rcases step_represents textOf h e hone with ⟨c', hc', hx'⟩
        rcases ih c' _ hx' hrest with ⟨c'', hc'', hx''⟩
        exact ⟨c'', by rw [List.foldlM_cons, hc']; exact hc'', hx''⟩
  exact hfrom events {} {} ⟨rfl, .nil⟩ hvs

/-- A column is read as what it is to hold. -/
theorem read_represents {c : Column κ} {x : Contents} (h : c.Represents A x) :
    ∃ ws, c.read A textOf = .ok ws ∧ List.Forall₂ Decoded.SameValue ws x.read := by
  rcases cells_spec textOf h with ⟨ks, hks, hcells⟩
  have hvalues : List.Forall₂ (fun k v => ∃ w, valueOf A c.tag k = .ok w ∧ w.SameValue v) ks x.read :=
    hcells.imp fun _ _ ⟨w, hw, halike, _⟩ => ⟨w, hw, halike⟩
  rcases (forall₂_comp ks x.read).mpr hvalues with ⟨ws, hws, halike⟩
  exact ⟨ws, except_bind_ok_iff.mpr ⟨ks, hks, (except_mapM_ok_iff _ _).mpr hws⟩, halike⟩

end Columns

end DataCrystal
