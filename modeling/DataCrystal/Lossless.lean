import DataCrystal.Promotion

/-!
# What Comes Back from a Column

A column takes every value that decoding a record can yield, unless there is a
blob in it, and gives it back. The value compares equal to the one that was
written, but for integers that went through a column of floats. Those are the
nearest floats, and equal where a float has the bits for them.

An integer of up to 53 bits is not changed. A larger one may be, and a blob is
turned away with an exception.

## Theorems

* `encodable_of_yielded`: What decoding yields, a message gives back.
* `tagOf_holds`: The tag of a value holds it.
* `coerce_equal`: What a column makes of a value.
* `columns_promote`: Values come back from their column.
* `blob_is_refused`: Blobs do not get there.
* `large_integer_is_rounded`: An integer that does not.
-/

namespace DataCrystal

section Yields

theorem Decoded.inline_items {ds : List Decoded} :
    Decoded.Inline.InlineItems ds ↔ ∀ d ∈ ds, d.Inline := by
  induction ds with
  | nil => simp [Decoded.Inline.InlineItems]
  | cons d ds ih => simp [Decoded.Inline.InlineItems, ih]

theorem Decoded.inline_entries {es : List (Leaf × Decoded)} :
    Decoded.Inline.InlineEntries es ↔ ∀ e ∈ es, e.2.Inline := by
  induction es with
  | nil => simp [Decoded.Inline.InlineEntries]
  | cons e es ih => simp [Decoded.Inline.InlineEntries, ih]

theorem Wire.fitItems {ws : List Wire} : Wire.Fits.FitItems ws ↔ ∀ w ∈ ws, w.Fits := by
  induction ws with
  | nil => simp [Wire.Fits.FitItems]
  | cons w ws ih => simp [Wire.Fits.FitItems, ih]

theorem Wire.fitEntries {es : List (WireLeaf × Wire)} :
    Wire.Fits.FitEntries es ↔ ∀ e ∈ es, e.1.Fits ∧ e.2.Fits := by
  induction es with
  | nil => simp [Wire.Fits.FitEntries]
  | cons e es ih => simp [Wire.Fits.FitEntries, ih, and_assoc]

/-- Induction over messages, with the parts of a container by membership. -/
theorem Wire.induction_parts {P : Wire → Prop} (hleaf : ∀ w, P (.leaf w))
    (hext : ∀ code data, P (.ext code data)) (harray : ∀ ws, (∀ w ∈ ws, P w) → P (.array ws))
    (hmap : ∀ es, (∀ e ∈ es, P e.2) → P (.map es)) : ∀ w, P w :=
  @Wire.rec P (fun ws => ∀ w ∈ ws, P w) (fun es => ∀ e ∈ es, P e.2) (fun e => P e.2)
    hleaf hext harray hmap
    (fun w hw => absurd hw List.not_mem_nil) (fun w ws hw hws v hv => by
      rcases List.mem_cons.mp hv with rfl | hv
      · exact hw
      · exact hws v hv)
    (fun e he => absurd he List.not_mem_nil) (fun f fs hf hfs e he => by
      rcases List.mem_cons.mp he with rfl | he
      · exact hf
      · exact hfs e he)
    (fun _ _ hw => hw)

theorem isOid_unpackSigned {bs : Bytes} (h : bs.length = 8) : IsOid (unpackSigned bs) := by
  have hlt := unpackBE_lt bs
  rw [h] at hlt
  unfold unpackSigned IsOid
  dsimp only
  split
  · omega
  · omega

theorem encodableKey_decodeLeaf {w : WireLeaf} (h : w.Fits) : (decodeLeaf w).EncodableKey := by
  refine ⟨isText_decodeLeaf w, ?_, ?_⟩
  · cases w <;> rfl
  · cases w with
    | int i => exact h
    | _ => trivial

/-- What the hook makes of an extension. -/
theorem extHook_cases {code : Nat} {data : Bytes} {d : Decoded} (h : extHook code data = .ok d) :
    (∃ n, d = .ref n ∧ IsOid n) ∨ (∃ l, d = .leaf l ∧ l.isText = true) ∨ (∃ b, d = .blob b) ∨
      d = .ext code data := by
  -- The four text types are read alike.
  have hread : ∀ {α : Type} (read : Text → Option α) (f : α → Leaf), (∀ a, (f a).isText = true) →
      (decodeAscii data >>= fun text => orRaise (read text) >>= fun a =>
        pure (Decoded.leaf (f a))) = .ok d → ∃ l, d = .leaf l ∧ l.isText = true := by
    intro α read f hf h
    rcases except_bind_ok_iff.mp h with ⟨text, -, h⟩
    rcases except_bind_ok_iff.mp h with ⟨a, -, h⟩
    cases h
    exact ⟨f a, rfl, hf a⟩
  unfold extHook at h
  by_cases href : code = refExtCode
  · rw [if_pos href] at h
    split at h
    · next hlength =>
        cases h
        exact Or.inl ⟨_, rfl, isOid_unpackSigned hlength⟩
    · cases h
  rw [if_neg href] at h
  by_cases hnaive : code = naiveDatetimeExtCode
  · rw [if_pos hnaive] at h
    exact Or.inr (Or.inl (hread NaiveDatetime.fromisoformat .naive (fun _ => rfl) h))
  rw [if_neg hnaive] at h
  by_cases hdate : code = dateExtCode
  · rw [if_pos hdate] at h
    exact Or.inr (Or.inl (hread Date.fromisoformat .date (fun _ => rfl) h))
  rw [if_neg hdate] at h
  by_cases htime : code = timeExtCode
  · rw [if_pos htime] at h
    exact Or.inr (Or.inl (hread Time.fromisoformat .time (fun _ => rfl) h))
  rw [if_neg htime] at h
  by_cases hdecimal : code = decimalExtCode
  · rw [if_pos hdecimal] at h
    exact Or.inr (Or.inl (hread Decimal.parse .decimal (fun _ => rfl) h))
  rw [if_neg hdecimal] at h
  -- A blob has its own length; any other code is left as an extension.
  right
  right
  split at h
  · split at h
    · cases h
    · cases h
      exact Or.inl ⟨_, rfl⟩
  · cases h
    exact Or.inr rfl

/-- What the hook makes of an extension, a message gives back, unless it is a blob. -/
theorem encodable_extHook {code : Nat} {data : Bytes} {d : Decoded}
    (h : extHook code data = .ok d) (hinline : d.Inline) : Encodable d := by
  rcases extHook_cases h with ⟨n, rfl, hoid⟩ | ⟨l, rfl, htext⟩ | ⟨b, rfl⟩ | rfl
  · exact .ref hoid
  · cases l <;> first | exact .leaf rfl trivial | cases htext
  · exact absurd hinline id
  · exact .ext h

theorem pairwise_setKey {d : List (Leaf × Decoded)} {e : Leaf × Decoded}
    (h : (d.map Prod.fst).Pairwise fun a b => a.sameKey b = false) :
    ((setKey d e).map Prod.fst).Pairwise fun a b => a.sameKey b = false := by
  unfold setKey
  split
  · have hkeys : (d.map fun x => if x.1.sameKey e.1 then (x.1, e.2) else x).map Prod.fst =
        d.map Prod.fst := by
      rw [List.map_map]
      refine List.map_congr_left fun x _ => ?_
      rw [Function.comp_apply]
      split <;> rfl
    rw [hkeys]
    exact h
  · next hnew =>
      rw [List.map_append, List.pairwise_append]
      refine ⟨h, List.pairwise_singleton _ _, ?_⟩
      intro a ha b hb
      rcases List.mem_map.mp ha with ⟨x, hx, rfl⟩
      rw [List.map_singleton, List.mem_singleton] at hb
      rw [hb]
      by_contra hsame
      rw [Bool.not_eq_false] at hsame
      exact hnew (List.any_eq_true.mpr ⟨x, hx, hsame⟩)

/-- The keys of a dictionary are distinct. -/
theorem pairwise_buildDict (es : List (Leaf × Decoded)) :
    ((buildDict es).map Prod.fst).Pairwise fun a b => a.sameKey b = false := by
  have hfrom : ∀ (fs d : List (Leaf × Decoded)),
      ((d.map Prod.fst).Pairwise fun a b => a.sameKey b = false) →
      ((fs.foldl setKey d).map Prod.fst).Pairwise fun a b => a.sameKey b = false := by
    intro fs
    induction fs with
    | nil => exact fun d h => h
    | cons f fs ih => exact fun d h => ih _ (pairwise_setKey h)
  exact hfrom es [] List.Pairwise.nil

theorem mem_values_setKey {d : List (Leaf × Decoded)} {e x : Leaf × Decoded}
    (h : x ∈ setKey d e) : x.2 = e.2 ∨ ∃ y ∈ d, y.2 = x.2 := by
  unfold setKey at h
  split at h
  · rcases List.mem_map.mp h with ⟨y, hy, rfl⟩
    split
    · exact Or.inl rfl
    · exact Or.inr ⟨y, hy, rfl⟩
  · rcases List.mem_append.mp h with h | h
    · exact Or.inr ⟨x, h, rfl⟩
    · rw [List.mem_singleton.mp h]
      exact Or.inl rfl

/-- Every value of a dictionary is that of one of the entries it was made from. -/
theorem mem_values_buildDict {es : List (Leaf × Decoded)} {x : Leaf × Decoded}
    (h : x ∈ buildDict es) : ∃ e ∈ es, e.2 = x.2 := by
  have hfrom : ∀ (fs d : List (Leaf × Decoded)) (x : Leaf × Decoded), x ∈ fs.foldl setKey d →
      (∃ y ∈ d, y.2 = x.2) ∨ ∃ f ∈ fs, f.2 = x.2 := by
    intro fs
    induction fs with
    | nil => exact fun d x h => Or.inl ⟨x, h, rfl⟩
    | cons f fs ih =>
        intro d x h
        rcases ih _ x h with ⟨y, hy, hvalue⟩ | ⟨g, hg, hvalue⟩
        · rcases mem_values_setKey hy with heq | ⟨z, hz, heq⟩
          · exact Or.inr ⟨f, List.mem_cons_self, heq.symm.trans hvalue⟩
          · exact Or.inl ⟨z, hz, heq.trans hvalue⟩
        · exact Or.inr ⟨g, List.mem_cons_of_mem f hg, hvalue⟩
  rcases hfrom es [] x h with ⟨y, hy, -⟩ | hes
  · exact absurd hy List.not_mem_nil
  · exact hes

/-- What decoding a message yields, a message gives back. -/
theorem encodable_of_decode (w : Wire) : ∀ d, decode w = .ok d → w.Fits → d.Inline →
    Encodable d := by
  induction w using Wire.induction_parts with
  | hleaf w =>
      intro d h hfits _
      cases h
      have hkey := encodableKey_decodeLeaf hfits
      -- A decoded leaf is a leaf the encoder takes.
      exact .leaf hkey.2.1 hkey.2.2
  | hext code data => exact fun d h _ hinline => encodable_extHook h hinline
  | harray ws ih =>
      intro d h hfits hinline
      rcases (decode_array ws d).mp h with ⟨ds, rfl, hds⟩
      have hws := Wire.fitItems.mp hfits
      have hall := Decoded.inline_items.mp hinline
      refine .list fun x hx => ?_
      rcases mem_of_except_mapM ((except_mapM_ok_iff ws ds).mpr hds) x hx with ⟨w, hw, hone⟩
      exact ih w hw x hone (hws w hw) (hall x hx)
  | hmap es ih =>
      intro d h hfits hinline
      rcases (decode_map es d).mp h with ⟨ds, rfl, hds⟩
      rcases (decodeEntries_ok_iff es ds).mp hds with ⟨hkeys, hvalues⟩
      have hes := Wire.fitEntries.mp hfits
      have hall := Decoded.inline_entries.mp hinline
      -- A dictionary has each key once, whatever the map had.
      refine .dict (fun e he => ?_) (pairwise_buildDict ds) fun e he => ?_
      · have hkey := mem_keys_buildDict (List.mem_map_of_mem he)
        rw [hkeys] at hkey
        rcases List.mem_map.mp hkey with ⟨x, hx, hkey⟩
        rw [← hkey]
        exact encodableKey_decodeLeaf (hes x hx).1
      · rcases mem_values_buildDict he with ⟨f, hf, hvalue⟩
        rcases mem_of_except_mapM ((except_mapM_ok_iff _ _).mpr hvalues) f.2
          (List.mem_map_of_mem hf) with ⟨w, hw, hone⟩
        rcases List.mem_map.mp hw with ⟨x, hx, rfl⟩
        rw [hvalue] at hone
        exact ih x hx e.2 hone (hes x hx).2 (hall e he)

/-- What decoding a record yields, a message gives back. -/
theorem encodable_of_yielded {v : Decoded} (h : Yielded v) (hinline : v.Inline) : Encodable v := by
  rcases h with ⟨payload, ds, hfits, hds, hv⟩
  unfold decodePayload at hds
  split at hds
  · next hdecode =>
      cases hds
      cases payload with
      | array ws =>
          rcases (decode_array ws _).mp hdecode with ⟨ds', heq, hall⟩
          cases heq
          rcases mem_of_except_mapM ((except_mapM_ok_iff ws _).mpr hall) v hv with ⟨w, hw, hone⟩
          exact encodable_of_decode w v hone (Wire.fitItems.mp hfits w hw) hinline
      | leaf w => cases hdecode
      | map es =>
          rcases (decode_map es _).mp hdecode with ⟨_, heq, -⟩
          cases heq
      | ext code data =>
          rcases extHook_cases hdecode with ⟨_, heq, -⟩ | ⟨_, heq, -⟩ | ⟨_, heq⟩ | heq <;> cases heq
  · cases hds
  · cases hds

end Yields

section Tags

/-- The tag of a decimal covers it. -/
theorem decimalTag_holds (negative : Bool) (c : Nat) (e : ℤ) :
    (decimalTag (.finite negative c e)).Holds (.leaf (.decimal (.finite negative c e))) := by
  unfold decimalTag
  refine Tag.holds_decimalTagOf fun d hint hscale => ?_
  have hdigits := d.integer
  unfold DecimalTag.integerDigits at hint
  -- The exponent and the scale make a power that is no fraction.
  have hpower : e + d.scale = (e + d.scale).toNat := by omega
  refine ⟨(if negative then -1 else 1) * c * 10 ^ (e + d.scale).toNat, ?_, ?_⟩
  · unfold Decimal.value
    rw [mul_assoc, ← zpow_natCast, ← zpow_add₀ (by norm_num), hpower, zpow_natCast]
    push_cast
    cases negative <;> rfl
  · have hcoefficient : (c : ℤ) < 10 ^ numDigits c := by exact_mod_cast lt_pow_numDigits c
    have hpos : (0 : ℤ) < 10 ^ (e + d.scale).toNat := pow_pos (by decide) _
    have habs : |(if negative then -1 else 1) * (c : ℤ) * 10 ^ (e + d.scale).toNat| =
        c * 10 ^ (e + d.scale).toNat := by
      rw [abs_mul, abs_of_pos hpos, abs_mul]
      cases negative <;> simp
    rw [habs]
    calc (c : ℤ) * 10 ^ (e + d.scale).toNat
        < 10 ^ numDigits c * 10 ^ (e + d.scale).toNat := mul_lt_mul_of_pos_right hcoefficient hpos
      _ = 10 ^ (numDigits c + (e + d.scale).toNat) := (pow_add _ _ _).symm
      _ ≤ 10 ^ d.precision := pow_le_pow_right₀ (by decide) (by omega)

/-- The tag of a scalar holds it. -/
theorem leafTag_holds {l : Leaf} (hnormal : l.normal = l) : (leafTag l).Holds (.leaf l) := by
  cases l with
  | none => exact Tag.holds_none _
  | int i =>
      rw [leafTag]
      split
      · next hfits => exact Or.inr ⟨_, rfl, hfits.1, by have := hfits.2; omega⟩
      · exact Tag.fallback_holds _
  | bytearray b => cases hnormal
  | aware instant offset =>
      cases hnormal
      exact Or.inr ⟨_, rfl, rfl⟩
  | time t =>
      rw [leafTag]
      split
      · next hnaive => exact Or.inr ⟨_, rfl, hnaive⟩
      · exact Tag.fallback_holds _
  | decimal d =>
      cases d with
      | finite negative c e => exact decimalTag_holds negative c e
      | _ => exact Tag.fallback_holds _
  | _ => exact Or.inr ⟨_, rfl, trivial⟩

/-- The tag of a value holds it. -/
theorem tagOf_holds {v : Decoded} (h : Encodable v) : (tagOf v).Holds v := by
  induction h with
  | leaf hnormal _ => exact leafTag_holds hnormal
  | ref hoid => exact Or.inr ⟨_, rfl, hoid⟩
  | ext _ => exact Tag.fallback_holds _
  | list _ ih =>
      rw [tagOf_list]
      exact Tag.holds_list_of (Or.inr ⟨_, rfl, fun d hd => holds_widen hd (ih d hd) .null⟩)
  | dict _ _ _ _ => exact Tag.fallback_holds _

end Tags

section Equality

/-- Induction over decoded values, with the parts of a container by membership. -/
theorem Decoded.induction_parts {P : Decoded → Prop} (hleaf : ∀ l, P (.leaf l))
    (href : ∀ oid, P (.ref oid)) (hblob : ∀ b, P (.blob b)) (hext : ∀ code data, P (.ext code data))
    (hlist : ∀ ds, (∀ d ∈ ds, P d) → P (.list ds))
    (hdict : ∀ es, (∀ e ∈ es, P e.2) → P (.dict es)) : ∀ d, P d :=
  @Decoded.rec P (fun ds => ∀ d ∈ ds, P d) (fun es => ∀ e ∈ es, P e.2) (fun e => P e.2)
    hleaf href hblob hext hlist hdict
    (fun d hd => absurd hd List.not_mem_nil) (fun d ds hd hds x hx => by
      rcases List.mem_cons.mp hx with rfl | hx
      · exact hd
      · exact hds x hx)
    (fun e he => absurd he List.not_mem_nil) (fun e es he hes x hx => by
      rcases List.mem_cons.mp hx with rfl | hx
      · exact he
      · exact hes x hx)
    (fun _ _ hd => hd)

theorem sameKey_iff {a b : Leaf} : a.sameKey b = true ↔ ∃ k, a.hashKey = some k ∧ b.hashKey = some k := by
  unfold Leaf.sameKey
  rw [Bool.and_eq_true, decide_eq_true_eq, Option.isSome_iff_exists]
  constructor
  · rintro ⟨⟨k, hk⟩, heq⟩
    exact ⟨k, hk, by rw [← heq, hk]⟩
  · rintro ⟨k, ha, hb⟩
    exact ⟨⟨k, ha⟩, by rw [ha, hb]⟩

theorem Decoded.Equal.of_leaf {l : Leaf} {v : Decoded} (h : (Decoded.leaf l).Equal v) :
    ∃ m, v = .leaf m ∧ (l = m ∨ l.sameKey m = true) := by
  cases h with
  | same => exact ⟨l, rfl, Or.inl rfl⟩
  | leaf h => exact ⟨_, rfl, Or.inr h⟩

theorem Decoded.Equal.of_list {xs : List Decoded} {v : Decoded} (h : (Decoded.list xs).Equal v) :
    ∃ ys, v = .list ys ∧ List.Forall₂ Decoded.Equal xs ys := by
  cases h with
  | same => exact ⟨xs, rfl, List.forall₂_same.mpr fun x _ => .same x⟩
  | list h => exact ⟨_, rfl, h⟩

/-- A scalar that has another's key compares equal to what the other does. -/
theorem equal_of_sameKey {a b : Leaf} {v : Decoded} (hab : a.sameKey b = true)
    (h : (Decoded.leaf b).Equal v) : (Decoded.leaf a).Equal v := by
  rcases h.of_leaf with ⟨m, rfl, rfl | hbm⟩
  · exact .leaf hab
  · rcases sameKey_iff.mp hab with ⟨k, ha, hb⟩
    rcases sameKey_iff.mp hbm with ⟨k', hb', hm⟩
    rw [hb, Option.some.injEq] at hb'
    exact .leaf (sameKey_iff.mpr ⟨k, ha, by rw [hm, hb']⟩)

/-- Values that differ in how decimals are written compare equal to the same values. -/
theorem Decoded.SameValue.equal (w : Decoded) : ∀ {v u : Decoded}, w.SameValue v → v.Equal u →
    w.Equal u := by
  induction w using Decoded.induction_parts with
  | hlist ws ih =>
      intro v u halike h
      rcases halike.of_list with ⟨vs, rfl, halikes⟩
      rcases h.of_list with ⟨us, rfl, hequals⟩
      have hall : List.Forall₂ (fun w v => ∀ u, v.Equal u → w.Equal u) ws vs :=
        ((List.forall₂_and_left _ _).mpr ⟨fun w hw => hw, halikes⟩).imp
          fun w v hw u hu => ih w hw.1 hw.2 hu
      exact .list (((forall₂_comp ws us).mp ⟨vs, hall, hequals⟩).imp
        fun w u ⟨v, hwv, hvu⟩ => hwv u hvu)
  | hleaf l =>
      intro v u halike h
      cases halike with
      | same => exact h
      | leaf hl =>
          rcases hl with rfl | ⟨s, m, e, s', m', e', rfl, rfl, hvalue⟩
          · exact h
          · refine equal_of_sameKey (sameKey_iff.mpr ⟨_, rfl, ?_⟩) h
            rw [hvalue]
            rfl
  | _ =>
      intro v u halike h
      cases halike
      exact h

theorem Decoded.exact_items {ds : List Decoded} : Decoded.Exact.ExactItems ds ↔ ∀ d ∈ ds, d.Exact := by
  induction ds with
  | nil => simp [Decoded.Exact.ExactItems]
  | cons d ds ih => simp [Decoded.Exact.ExactItems, ih]

/-- An integer of 53 bits is a float. -/
theorem ofInt_of_lt {i : ℤ} (h : i.natAbs < 2 ^ 53) : Double.ofInt i = .finite i := by
  unfold Double.ofInt
  rw [roundBits_of_lt h]
  have hsign : (i.sign : ℚ) * (i.natAbs : ℚ) = i := by
    have hint := congrArg (Int.cast (R := ℚ)) (Int.sign_mul_natAbs i)
    rw [Int.cast_mul, Int.cast_natCast] at hint
    exact hint
  rw [hsign]

theorem ofInt_bit (b : Bool) :
    Double.ofInt (if b then 1 else 0) = .finite (if b then 1 else 0 : ℤ) :=
  ofInt_of_lt (by cases b <;> decide)

/-- A column of numbers changes no scalar but an integer a float has no bits for. -/
theorem coerceLeaf_equal (t : Tag) {l : Leaf} (h : (Decoded.leaf l).Exact) :
    (coerceLeaf t l = l ∨ (coerceLeaf t l).sameKey l = true) ∧
      (Decoded.leaf (coerceLeaf t l)).Exact := by
  have hkept : coerceLeaf t l = l → (coerceLeaf t l = l ∨ (coerceLeaf t l).sameKey l = true) ∧
      (Decoded.leaf (coerceLeaf t l)).Exact := by
    intro heq
    rw [heq]
    exact ⟨Or.inl rfl, h⟩
  cases t with
  | float =>
      cases l with
      | int i =>
          refine ⟨Or.inr (sameKey_iff.mpr ⟨.number i, ?_, rfl⟩), trivial⟩
          change (Leaf.float (Double.ofInt i)).hashKey = _
          rw [show Double.ofInt i = .finite i from h]
          rfl
      | bool b =>
          refine ⟨Or.inr (sameKey_iff.mpr ⟨.number (if b then 1 else 0), ?_, rfl⟩), trivial⟩
          change (Leaf.float (Double.ofInt _)).hashKey = _
          rw [ofInt_bit]
          cases b <;> rfl
      | _ => exact hkept rfl
  | int =>
      cases l with
      | bool b =>
          refine ⟨Or.inr (sameKey_iff.mpr ⟨.number (if b then 1 else 0), ?_, rfl⟩), ?_⟩
          · cases b <;> rfl
          · exact ofInt_bit b
      | _ => exact hkept rfl
  | _ => exact hkept (by cases l <;> rfl)

/-- What a column makes of a value compares equal to it, unless a float has no bits
    for an integer in it. -/
theorem coerce_equal (t : Tag) : ∀ {x v : Decoded}, x.Equal v → x.Exact →
    (coerce t x).Equal v ∧ (coerce t x).Exact := by
  have hleaf : ∀ {t : Tag} {l : Leaf} {v : Decoded}, (Decoded.leaf l).Equal v →
      (Decoded.leaf l).Exact → (Decoded.leaf (coerceLeaf t l)).Equal v ∧
        (Decoded.leaf (coerceLeaf t l)).Exact := by
    intro t l v h hexact
    rcases coerceLeaf_equal t hexact with ⟨heq | hkey, hexact'⟩
    · rw [heq]
      exact ⟨h, hexact⟩
    · exact ⟨equal_of_sameKey hkey h, hexact'⟩
  induction t with
  | list inner ih =>
      intro x v h hexact
      cases x with
      | list items =>
          rcases h.of_list with ⟨vs, rfl, hequals⟩
          have hitems := Decoded.exact_items.mp hexact
          constructor
          · refine .list (List.forall₂_map_left_iff.mpr ?_)
            exact ((List.forall₂_and_left _ _).mpr ⟨hitems, hequals⟩).imp
              fun d v hd => (ih hd.2 hd.1).1
          · refine Decoded.exact_items.mpr fun d hd => ?_
            rcases List.mem_map.mp hd with ⟨y, hy, rfl⟩
            exact (ih (.same y) (hitems y hy)).2
      | _ => exact ⟨h, hexact⟩
  | _ =>
      intro x v h hexact
      cases x with
      | leaf l => exact hleaf h hexact
      | _ => exact ⟨h, hexact⟩

end Equality

section Runs

/-- What a column is to hold, beside what was written. An integer that no float
    equals may be written to a column of floats, and then nothing is said of it. -/
def Traces (x v : Decoded) : Prop := v.Exact → x.Equal v ∧ x.Exact

theorem Traces.coerce {x v : Decoded} (h : Traces x v) (t : Tag) : Traces (coerce t x) v :=
  fun hexact => coerce_equal t (h hexact).1 (h hexact).2

theorem step_traces {x : Contents} {vs : List Decoded}
    (h : List.Forall₂ Traces x.segments.flatten vs) (e : ColumnEvent) :
    List.Forall₂ Traces (x.step e).segments.flatten (vs ++ e.values) := by
  cases e with
  | write ws =>
      change List.Forall₂ Traces (x.segments ++ [ws.map (coerce (widen x.tag ws))]).flatten (vs ++ ws)
      rw [List.flatten_append, List.flatten_singleton]
      refine List.rel_append h (List.forall₂_map_left_iff.mpr (List.forall₂_same.mpr fun w _ => ?_))
      exact Traces.coerce (fun hexact => ⟨.same w, hexact⟩) _
  | compact =>
      change List.Forall₂ Traces x.compact.segments.flatten (vs ++ [])
      rw [List.append_nil]
      unfold Contents.compact
      split
      · exact h
      · rw [List.flatten_singleton]
        exact List.forall₂_map_left_iff.mpr (h.imp fun _ _ hone => hone.coerce x.tag)

/-- The contents of a column follow what was written. -/
theorem run_traces (events : List ColumnEvent) :
    List.Forall₂ Traces (Contents.run events).read (valuesWritten events) := by
  have hfrom : ∀ (es : List ColumnEvent) (x : Contents) (vs : List Decoded),
      List.Forall₂ Traces x.segments.flatten vs →
      List.Forall₂ Traces (es.foldl Contents.step x).segments.flatten (vs ++ valuesWritten es) := by
    intro es
    induction es with
    | nil =>
        intro x vs h
        rw [valuesWritten, List.flatMap_nil, List.append_nil]
        exact h
    | cons e es ih =>
        intro x vs h
        have hnext := ih (x.step e) (vs ++ e.values) (step_traces h e)
        rw [List.append_assoc] at hnext
        rw [valuesWritten, List.flatMap_cons]
        exact hnext
  have hall := hfrom events {} [] .nil
  rw [List.nil_append] at hall
  exact List.forall₂_map_left_iff.mpr (hall.imp fun _ _ hone => hone.coerce _)

/-- A column gives back what it is to hold, and that is what was written. -/
def Promotes {κ : Type} (A : Arrow κ) (textOf : Leaf → Text) (events : List ColumnEvent) : Prop :=
  ∃ c ws, Column.run A textOf events = .ok c ∧ c.read A textOf = .ok ws ∧
    List.Forall₂ Decoded.Equal ws (Contents.run events).read ∧
    List.Forall₂ (fun w v => v.Exact → w.Equal v) ws (valuesWritten events)

/-- The tags of columns have least common ones. Whatever is written to a column, in
    whatever segments, and whenever these become one, it is read as what the column is
    to hold. That is the values written, each compared by value, but for the integers
    that went through a column of floats and are too long for them. -/
theorem columns_promote :
    ((∀ a b, unify a b = unify b a) ∧ (∀ a b c, unify (unify a b) c = unify a (unify b c)) ∧
      (∀ a, unify a a = a) ∧ (∀ a, unify .null a = a) ∧ ∀ a, unify .fallback a = .fallback) ∧
    ∀ {κ : Type} (A : Arrow κ) (textOf : Leaf → Text) (events : List ColumnEvent),
      (∀ v ∈ valuesWritten events, Yielded v ∧ v.Inline) → Promotes A textOf events := by
  refine ⟨⟨unify_comm, unify_assoc, unify_self, null_unify, fallback_unify⟩, ?_⟩
  intro κ A textOf events hvs
  have haccepts : ∀ v ∈ valuesWritten events, Column.Accepts v := fun v hv =>
    have henc := encodable_of_yielded (hvs v hv).1 (hvs v hv).2
    ⟨henc, tagOf_holds henc⟩
  rcases @run_represents κ A textOf events haccepts with ⟨c, hc, hrepresents⟩
  rcases read_represents textOf hrepresents with ⟨ws, hws, halike⟩
  refine ⟨c, ws, hc, hws, halike.imp fun w v h => Decoded.SameValue.equal w h (.same v), ?_⟩
  refine ((forall₂_comp ws _).mp ⟨_, halike, run_traces events⟩).imp ?_
  rintro w v ⟨x, hx, hfollows⟩ hexact
  exact Decoded.SameValue.equal w hx (hfollows hexact).1

/-- A blob is turned away. -/
theorem blob_is_refused {κ : Type} (A : Arrow κ) (textOf : Leaf → Text) (c : Column κ)
    (d : BlobDescriptor) : c.write A textOf [.blob d] = .error (.codec .typeError) := by
  have htag : widen c.tag [.blob d] = .fallback := unify_fallback c.tag
  unfold Column.write
  rw [htag]
  rfl

theorem Stored.Same.refl : ∀ s : Stored, s.Same s :=
  @Stored.rec (fun s => s.Same s) (fun ss => List.Forall₂ Stored.Same ss ss)
    (fun l => .leaf (.refl l)) .message (fun _ h => .list h) .nil (fun _ _ h hs => .cons h hs)

/-- A format that stores everything as it is. -/
def exactArrow : Arrow Stored where
  put _ s := some s
  fetch _ s := s
  exact _ s _ := ⟨s, rfl, .refl s⟩

/-- The values of a record of scalars. -/
theorem yielded_leaf {w : WireLeaf} (h : w.Fits) : Yielded (.leaf (decodeLeaf w)) :=
  ⟨.array [.leaf w], [.leaf (decodeLeaf w)], ⟨h, trivial⟩, rfl, List.mem_singleton.mpr rfl⟩

/-- Numbers and a text, in a column that is compacted in between. -/
def mixedEvents : List ColumnEvent :=
  [.write [.leaf (.bool true), .leaf (.int 5)], .write [.leaf (.float (.finite (1 / 2)))], .compact,
    .write [.leaf (.str ['x'])]]

theorem columns_promote_mixed : Promotes exactArrow (fun _ => []) mixedEvents :=
  columns_promote.2 exactArrow _ mixedEvents <| List.forall_mem_cons.mpr
    ⟨⟨@yielded_leaf (.bool true) trivial, trivial⟩, List.forall_mem_cons.mpr
      ⟨⟨@yielded_leaf (.int 5) ⟨by decide, by decide⟩, trivial⟩, List.forall_mem_cons.mpr
        ⟨⟨@yielded_leaf (.float (.finite (1 / 2))) trivial, trivial⟩, List.forall_mem_cons.mpr
          ⟨⟨@yielded_leaf (.str ['x']) trivial, trivial⟩, List.forall_mem_nil _⟩⟩⟩⟩

/-- An integer of 54 bits, and a float that comes later. -/
def roundedEvents : List ColumnEvent :=
  [.write [.leaf (.int (2 ^ 53 + 1))], .write [.leaf (.float (.finite (1 / 2)))]]

theorem ofInt_rounded : Double.ofInt (2 ^ 53 + 1) = .finite (2 ^ 53) := by
  have hround : roundBits 53 (2 ^ 53 + 1) = 2 ^ 53 := by decide
  change Double.finite (((1 : ℤ) : ℚ) * (roundBits 53 (2 ^ 53 + 1) : ℚ)) = _
  rw [hround]
  norm_num

/-- An integer is rounded when a float comes to its column. -/
theorem large_integer_is_rounded :
    (∀ v ∈ valuesWritten roundedEvents, Yielded v ∧ v.Inline) ∧
    ∃ c ws, Column.run exactArrow (fun _ => []) roundedEvents = .ok c ∧
      c.read exactArrow (fun _ => []) = .ok ws ∧
      ¬List.Forall₂ Decoded.Equal ws (valuesWritten roundedEvents) := by
  refine ⟨?_, _, [.leaf (.float (Double.ofInt (2 ^ 53 + 1))), .leaf (.float (.finite (1 / 2)))], rfl,
    rfl, ?_⟩
  · exact List.forall_mem_cons.mpr
      ⟨⟨@yielded_leaf (.int (2 ^ 53 + 1)) ⟨by decide, by decide⟩, trivial⟩, List.forall_mem_cons.mpr
        ⟨⟨@yielded_leaf (.float (.finite (1 / 2))) trivial, trivial⟩, List.forall_mem_nil _⟩⟩
  · intro h
    cases h with
    | cons hone _ =>
        rcases hone.of_leaf with ⟨m, heq, hm⟩
        cases heq
        rcases hm with hm | hm
        · cases hm
        · rcases sameKey_iff.mp hm with ⟨k, hk, hk'⟩
          cases hk'
          rw [ofInt_rounded] at hk
          have hnumber : (2 ^ 53 : ℚ) = ((2 ^ 53 + 1 : ℤ) : ℚ) := by simpa [Leaf.hashKey] using hk
          have hint : (2 ^ 53 : ℤ) = 2 ^ 53 + 1 := by exact_mod_cast hnumber
          omega

end Runs

end DataCrystal
