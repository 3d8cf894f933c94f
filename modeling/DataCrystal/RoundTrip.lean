import DataCrystal.Lib.Raise
import DataCrystal.Lib.Pairings
import DataCrystal.Codec

/-!
# The Round Trip of a Record

What is decoded from a record is what was encoded, up to what the documentation
lists: a tuple is a list, an entity or a handle is the number of its target, a blob
is its descriptor, a bytearray is bytes, and an aware datetime is the same instant in
universal time.

The keys of a dictionary break it. The pass that puts the extensions does not look at
them, so a date, a naive datetime, a time or a decimal that is a key goes to the
encoder, which writes text, and text is what comes back. Everything else agrees:
`round_trip` says that a list of field values comes back exactly when no dictionary in
it has such a key, unless the encoding refuses it anyway.

The encoding is described first, without running it: `encodes_iff` says which values
it accepts. What it accepts is then followed through the decoder, value by value.

## Main definitions

* `LiveVal.nodes`: All values inside a value.
* `LiveVal.Accepted`: What the encoding accepts of one of them.
* `Arrives`: What is decoded is the value, up to the documented changes.
* `RoundTrips`: The encoding raises, or the values arrive.
* `FieldValues`: Field values whose dictionaries have distinct keys.

## Theorems

* `encodes_iff`: What is encoded.
* `arrives_iff`: What arrives.
* `round_trip`: The field values come back unless a key is written as text.
-/

namespace DataCrystal

section Definitions

variable {ε : Type}

/-- The changes the documentation lists for a scalar. -/
def Leaf.normal : Leaf → Leaf
  | .bytearray b => .bytes b
  | .aware instant _ => .aware instant utc
  | l => l

/-- A scalar the encoder has no type for. -/
def Leaf.isText : Leaf → Bool
  | .naive _ => true
  | .date _ => true
  | .time _ => true
  | .decimal _ => true
  | _ => false

/-- An integer has 64 bits. -/
def Leaf.Fits : Leaf → Prop
  | .int i => -2 ^ 63 ≤ i ∧ i < 2 ^ 64
  | _ => True

/-- A number that fits a reference. -/
def IsOid (n : ℤ) : Prop := -2 ^ 63 ≤ n ∧ n < 2 ^ 63

def BlobDescriptor.Fits (d : BlobDescriptor) : Prop := IsOid d.oid ∧ d.size < 2 ^ 64

namespace LiveVal

/-- A value and all values inside it. -/
def nodes : LiveVal ε → List (LiveVal ε)
  | .list items => .list items :: nodesOf items
  | .tuple items => .tuple items :: nodesOf items
  | .dict entries => .dict entries :: nodesIn entries
  | v => [v]
where
  nodesOf : List (LiveVal ε) → List (LiveVal ε)
    | [] => []
    | v :: vs => nodes v ++ nodesOf vs
  nodesIn : List (Leaf × LiveVal ε) → List (LiveVal ε)
    | [] => []
    | (_, v) :: es => nodes v ++ nodesIn es

/-- What the encoding accepts: integers of 64 bits, entities and handles with a
    number, and no blob outside a blob field. -/
def Accepted (oidFor : ε → Except CodecErr ℤ) : LiveVal ε → Prop
  | .leaf l => l.Fits
  | .entity e => ∃ n, oidFor e = .ok n ∧ IsOid n
  | .lazy (some e) _ => ∃ n, oidFor e = .ok n ∧ IsOid n
  | .lazy none (some n) => IsOid n
  | .lazy none none => False
  | .blobHandle _ => False
  | .blobSource _ _ => False
  | .list _ => True
  | .tuple _ => True
  | .dict entries => ∀ e ∈ entries, e.1.Fits

/-- No key of a dictionary is written as text. A date, a naive datetime, a time and
    a decimal are, and they come back as strings. -/
def Typed : LiveVal ε → Prop
  | .dict entries => ∀ e ∈ entries, e.1.isText = false
  | _ => True

/-- A dictionary has no two equal keys, and no bytearray, which does not hash. -/
def Keyed : LiveVal ε → Prop
  | .dict entries => (entries.map Prod.fst).Pairwise (fun a b => a.sameKey b = false) ∧
      ∀ e ∈ entries, ∀ b, e.1 ≠ .bytearray b
  | _ => True

end LiveVal

/-- What is decoded is the value, up to the documented changes. The entries of a
    dictionary keep their order. -/
inductive Arrives (oidFor : ε → Except CodecErr ℤ) : LiveVal ε → Decoded → Prop
  | leaf (l : Leaf) : Arrives oidFor (.leaf l) (.leaf l.normal)
  | entity (e : ε) (n : ℤ) (h : oidFor e = .ok n) : Arrives oidFor (.entity e) (.ref n)
  | loaded (e : ε) (oid : Option ℤ) (n : ℤ) (h : oidFor e = .ok n) :
      Arrives oidFor (.lazy (some e) oid) (.ref n)
  | unloaded (n : ℤ) : Arrives oidFor (.lazy none (some n)) (.ref n)
  | list {vs : List (LiveVal ε)} {ds : List Decoded} (h : List.Forall₂ (Arrives oidFor) vs ds) :
      Arrives oidFor (.list vs) (.list ds)
  | tuple {vs : List (LiveVal ε)} {ds : List Decoded} (h : List.Forall₂ (Arrives oidFor) vs ds) :
      Arrives oidFor (.tuple vs) (.list ds)
  | dict {es : List (Leaf × LiveVal ε)} {ds : List (Leaf × Decoded)}
      (hkeys : ds.map Prod.fst = es.map fun e => e.1.normal)
      (h : List.Forall₂ (Arrives oidFor) (es.map Prod.snd) (ds.map Prod.snd)) :
      Arrives oidFor (.dict es) (.dict ds)

/-- A value is out of line: it stands at a blob position and is not `None`. -/
def CodecEnv.outOfLine (env : CodecEnv ε) (i : Nat) (v : LiveVal ε) : Prop :=
  env.blobPositions i = true ∧ v ≠ .leaf .none

/-- The descriptor of an out-of-line value: the one it has, or what the sink gives. -/
def CodecEnv.Describes (env : CodecEnv ε) (i : Nat) (v : LiveVal ε) (d : BlobDescriptor) : Prop :=
  v = .blobHandle d ∨ (∀ d', v ≠ .blobHandle d') ∧ ∃ sink, env.blobSink = some sink ∧ sink i v = .ok d

/-- The encoding accepts a field value. -/
def CodecEnv.Accepts (env : CodecEnv ε) (i : Nat) (v : LiveVal ε) : Prop :=
  (env.outOfLine i v → ∃ d, env.Describes i v d ∧ d.Fits) ∧
    (¬env.outOfLine i v → ∀ u ∈ v.nodes, u.Accepted env.oidFor)

/-- A field value arrives. -/
def CodecEnv.ArrivesAt (env : CodecEnv ε) (i : Nat) (v : LiveVal ε) (d : Decoded) : Prop :=
  (env.outOfLine i v → ∃ b, env.Describes i v b ∧ d = .blob b) ∧
    (¬env.outOfLine i v → Arrives env.oidFor v d)

/-- The field values of an entity, as the language can hold them. -/
structure FieldValues (ε : Type) where
  values : List (LiveVal ε)
  keyed : ∀ v ∈ values, ∀ u ∈ v.nodes, u.Keyed

/-- The payload of a list of field values gives them back. -/
def Returns (env : CodecEnv ε) (vs : List (LiveVal ε)) : Prop :=
  ∃ payload ds, encodePayload env vs = .ok payload ∧ decodePayload payload = .ok ds ∧
    List.Forall₂ (fun field d => env.ArrivesAt field.2 field.1 d) vs.zipIdx ds

/-- The encoding raises, or every value arrives. A value that is refused is not
    lost, since nothing is written. -/
def RoundTrips (env : CodecEnv ε) (vs : FieldValues ε) : Prop :=
  (∃ e, encodePayload env vs.values = .error e) ∨
    Returns env vs.values

/-- No key of a dictionary in the values is written as text, unless the encoding
    refuses one of the values. -/
def FieldValues.Typed (env : CodecEnv ε) (vs : FieldValues ε) : Prop :=
  (∀ field ∈ vs.values.zipIdx, env.Accepts field.2 field.1) →
    ∀ field ∈ vs.values.zipIdx, ¬env.outOfLine field.2 field.1 → ∀ u ∈ field.1.nodes, u.Typed

end Definitions

section Trees

variable {ε : Type}

/-- Induction over values, with the parts of a container by membership. -/
theorem LiveVal.induction_parts {P : LiveVal ε → Prop} (hleaf : ∀ l, P (.leaf l))
    (hentity : ∀ e, P (.entity e)) (hlazy : ∀ t o, P (.lazy t o))
    (hhandle : ∀ d, P (.blobHandle d)) (hsource : ∀ n cs, P (.blobSource n cs))
    (hlist : ∀ vs, (∀ v ∈ vs, P v) → P (.list vs)) (htuple : ∀ vs, (∀ v ∈ vs, P v) → P (.tuple vs))
    (hdict : ∀ es, (∀ e ∈ es, P e.2) → P (.dict es)) : ∀ v, P v :=
  @LiveVal.rec ε P (fun vs => ∀ v ∈ vs, P v) (fun es => ∀ e ∈ es, P e.2) (fun e => P e.2)
    hleaf hentity hlazy hhandle hsource hlist htuple hdict
    (fun v hv => absurd hv List.not_mem_nil) (fun w ws hw hws v hv => by
      rcases List.mem_cons.mp hv with rfl | hv
      · exact hw
      · exact hws v hv)
    (fun e he => absurd he List.not_mem_nil) (fun f fs hf hfs e he => by
      rcases List.mem_cons.mp he with rfl | he
      · exact hf
      · exact hfs e he)
    (fun _ _ hv => hv)

theorem LiveVal.mem_nodesOf (vs : List (LiveVal ε)) (u : LiveVal ε) :
    u ∈ LiveVal.nodes.nodesOf vs ↔ ∃ v ∈ vs, u ∈ v.nodes := by
  induction vs with
  | nil => simp [LiveVal.nodes.nodesOf]
  | cons v vs ih => simp [LiveVal.nodes.nodesOf, ih]

theorem LiveVal.mem_nodesIn (es : List (Leaf × LiveVal ε)) (u : LiveVal ε) :
    u ∈ LiveVal.nodes.nodesIn es ↔ ∃ e ∈ es, u ∈ e.2.nodes := by
  induction es with
  | nil => simp [LiveVal.nodes.nodesIn]
  | cons e es ih => simp [LiveVal.nodes.nodesIn, ih]

section Nodes

variable {P : LiveVal ε → Prop}

/-- What all values inside a list have, in terms of its items. -/
theorem LiveVal.forall_nodes_list (vs : List (LiveVal ε)) :
    (∀ u ∈ (LiveVal.list vs).nodes, P u) ↔ P (.list vs) ∧ ∀ v ∈ vs, ∀ u ∈ v.nodes, P u := by
  rw [LiveVal.nodes, List.forall_mem_cons]
  refine and_congr_right fun _ => ?_
  simp only [LiveVal.mem_nodesOf]
  exact ⟨fun h v hv u hu => h u ⟨v, hv, hu⟩, fun h u ⟨v, hv, hu⟩ => h v hv u hu⟩

theorem LiveVal.forall_nodes_tuple (vs : List (LiveVal ε)) :
    (∀ u ∈ (LiveVal.tuple vs).nodes, P u) ↔ P (.tuple vs) ∧ ∀ v ∈ vs, ∀ u ∈ v.nodes, P u := by
  rw [LiveVal.nodes, List.forall_mem_cons]
  refine and_congr_right fun _ => ?_
  simp only [LiveVal.mem_nodesOf]
  exact ⟨fun h v hv u hu => h u ⟨v, hv, hu⟩, fun h u ⟨v, hv, hu⟩ => h v hv u hu⟩

theorem LiveVal.forall_nodes_dict (es : List (Leaf × LiveVal ε)) :
    (∀ u ∈ (LiveVal.dict es).nodes, P u) ↔ P (.dict es) ∧ ∀ e ∈ es, ∀ u ∈ e.2.nodes, P u := by
  rw [LiveVal.nodes, List.forall_mem_cons]
  refine and_congr_right fun _ => ?_
  simp only [LiveVal.mem_nodesIn]
  exact ⟨fun h e he u hu => h u ⟨e, he, hu⟩, fun h u ⟨e, he, hu⟩ => h e he u hu⟩

end Nodes

end Trees

section Extensions

theorem ascii_of_isDigit {c : Char} (h : isDigit c = true) : c.toNat < 128 := by
  unfold isDigit digitValue at h
  split_ifs at h with hrange
  · omega
  · cases h

/-- A text all of whose characters are ASCII. -/
def Ascii (t : Text) : Prop := ∀ c ∈ t, c.toNat < 128

theorem ascii_append {t t' : Text} (h : Ascii t) (h' : Ascii t') : Ascii (t ++ t') := by
  intro c hc
  rcases List.mem_append.mp hc with hc | hc
  · exact h c hc
  · exact h' c hc

theorem ascii_cons {c : Char} {t : Text} (hc : c.toNat < 128) (h : Ascii t) : Ascii (c :: t) := by
  intro d hd
  rcases List.mem_cons.mp hd with rfl | hd
  · exact hc
  · exact h d hd

theorem ascii_nil : Ascii [] := fun _ hc => absurd hc List.not_mem_nil

theorem ascii_of_all {t : Text} (h : (t.all fun c => c.toNat < 128) = true) : Ascii t :=
  fun c hc => of_decide_eq_true (List.all_eq_true.mp h c hc)

theorem ascii_digits {t : Text} (h : ∀ c ∈ t, isDigit c = true) : Ascii t :=
  fun c hc => ascii_of_isDigit (h c hc)

theorem ascii_pad (width n : Nat) : Ascii (pad width n) := ascii_digits (isDigit_of_mem_pad width n)

/-- ASCII text is read back from its bytes. -/
theorem decodeAscii_encodeAscii {t : Text} (h : Ascii t) : decodeAscii (encodeAscii t) = .ok t := by
  have hbyte : ∀ c : Char, c.toNat < 128 → (UInt8.ofNat c.toNat).toNat = c.toNat := by
    intro c hc
    rw [UInt8.toNat_ofNat']
    omega
  have hall : (encodeAscii t).all (fun b => b.toNat < 128) = true := by
    rw [List.all_eq_true]
    intro b hb
    rcases List.mem_map.mp hb with ⟨c, hc, rfl⟩
    rw [hbyte c (h c hc)]
    exact decide_eq_true (h c hc)
  have hback : (encodeAscii t).map (fun b => Char.ofNat b.toNat) = t := by
    rw [encodeAscii, List.map_map]
    refine (List.map_congr_left fun c hc => ?_).trans (List.map_id t)
    rw [Function.comp_apply, hbyte c (h c hc), Char.ofNat_toNat]
    rfl
  rw [decodeAscii, if_pos hall, hback]

theorem ascii_fraction (micros : Nat) : Ascii (fraction micros) := by
  unfold fraction
  split_ifs
  · exact ascii_nil
  · exact ascii_cons (by decide) (ascii_pad 6 micros)

theorem Date.ascii_text (d : Date) : Ascii d.text :=
  ascii_append (ascii_pad 4 _) (ascii_cons (by decide) (ascii_append (ascii_pad 2 _)
    (ascii_cons (by decide) (ascii_pad 2 _))))

theorem Clock.ascii_text (c : Clock) : Ascii c.text :=
  ascii_append (ascii_pad 2 _) (ascii_cons (by decide) (ascii_append (ascii_pad 2 _)
    (ascii_cons (by decide) (ascii_append (ascii_pad 2 _) (ascii_fraction _)))))

theorem Offset.ascii_text (o : Offset) : Ascii o.text := by
  have hseconds : ∀ micros, Ascii (Offset.secondsText micros) := by
    intro micros
    unfold Offset.secondsText
    split_ifs
    · exact ascii_nil
    · exact ascii_cons (by decide) (ascii_append (ascii_pad 2 _) (ascii_fraction _))
  refine ascii_cons ?_ (ascii_append (ascii_pad 2 _)
    (ascii_cons (by decide) (ascii_append (ascii_pad 2 _) (hseconds _))))
  split_ifs <;> decide

theorem Time.ascii_isoformat (t : Time) : Ascii t.isoformat := by
  refine ascii_append (Clock.ascii_text t.clock) ?_
  cases t.offset with
  | none => exact ascii_nil
  | some o => exact Offset.ascii_text o

theorem NaiveDatetime.ascii_isoformat (d : NaiveDatetime) : Ascii d.isoformat :=
  ascii_append (Date.ascii_text d.date) (ascii_cons (by decide) (Clock.ascii_text d.clock))

theorem Decimal.ascii_str (d : Decimal) : Ascii d.str := by
  have hsign : ∀ negative, Ascii (Decimal.signText negative) := by
    intro negative c hc
    cases negative with
    | false => exact absurd hc List.not_mem_nil
    | true =>
        cases List.mem_singleton.mp hc
        decide
  cases d with
  | finite negative coefficient exponent =>
      refine ascii_append (hsign negative) (ascii_append (ascii_digits (isDigit_intPart _))
        (ascii_append ?_ ?_))
      · unfold Decimal.pointText
        split_ifs
        · exact ascii_nil
        · exact ascii_cons (by decide) (ascii_digits (isDigit_fracPart _))
      · unfold Decimal.expText Decimal.intText
        split_ifs
        · exact ascii_nil
        · exact ascii_cons (by decide) (ascii_cons (by decide)
            (ascii_digits (isDigit_of_mem_natText _)))
        · exact ascii_cons (by decide) (ascii_cons (by decide)
            (ascii_digits (isDigit_of_mem_natText _)))
  | infinity negative =>
      exact ascii_append (hsign negative) (ascii_of_all (by decide))
  | nan negative signaling payload =>
      refine ascii_append (hsign negative) (ascii_append ?_ (ascii_append ?_ ?_))
      · cases signaling <;> exact ascii_of_all (by decide)
      · exact ascii_of_all (by decide)
      · unfold Decimal.payloadText
        split_ifs
        · exact ascii_nil
        · exact ascii_digits (isDigit_of_mem_natText _)

theorem packSigned_ok_iff {n : ℤ} {bs : Bytes} :
    packSigned n = .ok bs ↔ IsOid n ∧ bs = packBE 8 (n % 2 ^ 64).toNat := by
  unfold packSigned IsOid
  split_ifs with h
  · rw [Except.ok.injEq, eq_comm]
    exact (and_iff_right h).symm
  · exact iff_of_false (fun hc => nomatch hc) fun hc => h hc.1

theorem packUnsigned_ok_iff {n : Nat} {bs : Bytes} :
    packUnsigned n = .ok bs ↔ n < 2 ^ 64 ∧ bs = packBE 8 n := by
  unfold packUnsigned
  split_ifs with h
  · rw [Except.ok.injEq, eq_comm]
    exact (and_iff_right h).symm
  · exact iff_of_false (fun hc => nomatch hc) fun hc => h hc.1

/-- A number that fits eight bytes with a sign is read back. -/
theorem unpackSigned_packBE {n : ℤ} (h : IsOid n) :
    unpackSigned (packBE 8 (n % 2 ^ 64).toNat) = n := by
  rcases h with ⟨hlow, hhigh⟩
  have hmod : (n % 2 ^ 64).toNat < 256 ^ 8 := by omega
  rw [unpackSigned, unpackBE_packBE 8 _ hmod]
  by_cases hneg : n < 0
  · have hbig : ¬(n % 2 ^ 64).toNat < 2 ^ 63 := by omega
    simp only [if_neg hbig]
    omega
  · have hsmall : (n % 2 ^ 64).toNat < 2 ^ 63 := by omega
    simp only [if_pos hsmall]
    omega

/-- The reference extension gives its number back. -/
theorem refExt_ok_iff {n : ℤ} {x : Native} :
    refExt n = .ok x ↔ IsOid n ∧ x = .ext refExtCode (packBE 8 (n % 2 ^ 64).toNat) := by
  rw [refExt, except_bind_ok_iff]
  constructor
  · rintro ⟨bs, hbs, h⟩
    rcases packSigned_ok_iff.mp hbs with ⟨hn, rfl⟩
    cases h
    exact ⟨hn, rfl⟩
  · rintro ⟨hn, rfl⟩
    exact ⟨_, packSigned_ok_iff.mpr ⟨hn, rfl⟩, rfl⟩

theorem extHook_ref {n : ℤ} (h : IsOid n) :
    extHook refExtCode (packBE 8 (n % 2 ^ 64).toNat) = .ok (.ref n) := by
  rw [extHook, if_pos rfl, if_pos (length_packBE 8 _), unpackSigned_packBE h]

/-- The blob extension gives the descriptor back. -/
theorem blobExt_ok_iff {d : BlobDescriptor} {x : Native} :
    blobExt d = .ok x ↔ d.Fits ∧ x = .ext blobExtCode
      (packBE 8 (d.oid % 2 ^ 64).toNat ++ packBE 8 d.size ++ d.hash) := by
  rw [blobExt, except_bind_ok_iff]
  constructor
  · rintro ⟨bs, hbs, h⟩
    rcases except_bind_ok_iff.mp h with ⟨bs', hbs', h⟩
    rcases packSigned_ok_iff.mp hbs with ⟨hn, rfl⟩
    rcases packUnsigned_ok_iff.mp hbs' with ⟨hsize, rfl⟩
    cases h
    exact ⟨⟨hn, hsize⟩, rfl⟩
  · rintro ⟨⟨hn, hsize⟩, rfl⟩
    exact ⟨_, packSigned_ok_iff.mpr ⟨hn, rfl⟩, except_bind_ok_iff.mpr
      ⟨_, packUnsigned_ok_iff.mpr ⟨hsize, rfl⟩, rfl⟩⟩

theorem extHook_blob {d : BlobDescriptor} (h : d.Fits) :
    extHook blobExtCode (packBE 8 (d.oid % 2 ^ 64).toNat ++ packBE 8 d.size ++ d.hash) =
      .ok (.blob d) := by
  rcases h with ⟨hoid, hsize⟩
  have hlong : ¬(packBE 8 (d.oid % 2 ^ 64).toNat ++ packBE 8 d.size ++ d.hash).length < 16 := by
    rw [List.length_append, List.length_append, length_packBE, length_packBE]
    omega
  have hhead : (packBE 8 (d.oid % 2 ^ 64).toNat ++ (packBE 8 d.size ++ d.hash)).drop 8 =
      packBE 8 d.size ++ d.hash := List.drop_left' (length_packBE _ _)
  have htail : (packBE 8 (d.oid % 2 ^ 64).toNat ++ packBE 8 d.size ++ d.hash).drop 16 = d.hash := by
    refine List.drop_left' ?_
    rw [List.length_append, length_packBE, length_packBE]
  rw [extHook, if_neg (by decide), if_neg (by decide), if_neg (by decide), if_neg (by decide),
    if_neg (by decide), if_pos rfl, if_neg hlong, htail, List.append_assoc, hhead,
    List.take_left' (length_packBE _ _), List.take_left' (length_packBE _ _),
    unpackSigned_packBE hoid, unpackBE_packBE 8 _ (by omega)]

end Extensions

section Encoding

variable {ε : Type} {oidFor : ε → Except CodecErr ℤ} {textOf : Leaf → Text}

/-- A value is encoded as a message. -/
def Encodes (oidFor : ε → Except CodecErr ℤ) (textOf : Leaf → Text) (v : LiveVal ε) (w : Wire) :
    Prop := ∃ n, swizzle oidFor v = .ok n ∧ encodeNative textOf n = .ok w

theorem swizzleItems_ok_iff (vs : List (LiveVal ε)) (ns : List Native) :
    swizzle.swizzleItems oidFor vs = .ok ns ↔
      List.Forall₂ (fun v n => swizzle oidFor v = .ok n) vs ns :=
  @loop_ok_iff _ _ _ (swizzle oidFor) (swizzle.swizzleItems oidFor) rfl (fun _ _ => rfl) vs ns

theorem swizzleEntries_ok_iff (es : List (Leaf × LiveVal ε)) (ns : List (Leaf × Native)) :
    swizzle.swizzleEntries oidFor es = .ok ns ↔
      List.Forall₂ (fun e n => swizzle oidFor e.2 = .ok n.2 ∧ n.1 = e.1) es ns := by
  have hloop := @loop_ok_iff _ _ _ (fun e : Leaf × LiveVal ε => swizzle oidFor e.2 >>= fun n =>
    pure (e.1, n)) (swizzle.swizzleEntries oidFor) rfl (fun e es => by
      rw [swizzle.swizzleEntries]
      cases swizzle oidFor e.2 <;> rfl) es ns
  rw [hloop]
  refine iff_of_eq (congrArg (fun r => List.Forall₂ r es ns) ?_)
  funext e n
  refine propext (except_bind_ok_iff.trans ⟨?_, ?_⟩)
  · rintro ⟨m, hm, h⟩
    cases h
    exact ⟨hm, rfl⟩
  · rintro ⟨hn, hk⟩
    exact ⟨n.2, hn, by rw [← hk]; rfl⟩

theorem encodeItems_ok_iff (ns : List Native) (ws : List Wire) :
    encodeNative.encodeItems textOf ns = .ok ws ↔
      List.Forall₂ (fun n w => encodeNative textOf n = .ok w) ns ws :=
  @loop_ok_iff _ _ _ (encodeNative textOf) (encodeNative.encodeItems textOf) rfl (fun _ _ => rfl) ns ws

theorem encodeEntries_ok_iff (es : List (Leaf × Native)) (ws : List (WireLeaf × Wire)) :
    encodeNative.encodeEntries textOf es = .ok ws ↔
      List.Forall₂ (fun e w => encodeLeaf textOf e.1 = .ok w.1 ∧ encodeNative textOf e.2 = .ok w.2)
        es ws := by
  have hloop := @loop_ok_iff _ _ _ (fun e : Leaf × Native => encodeLeaf textOf e.1 >>= fun k =>
    encodeNative textOf e.2 >>= fun w => pure (k, w)) (encodeNative.encodeEntries textOf) rfl
    (fun e es => by
      rw [encodeNative.encodeEntries]
      cases encodeLeaf textOf e.1 with
      | error x => rfl
      | ok k => cases encodeNative textOf e.2 <;> rfl) es ws
  rw [hloop]
  refine iff_of_eq (congrArg (fun r => List.Forall₂ r es ws) ?_)
  funext e w
  refine propext (except_bind_ok_iff.trans ⟨?_, ?_⟩)
  · rintro ⟨k, hk, h⟩
    rcases except_bind_ok_iff.mp h with ⟨x, hx, h⟩
    cases h
    exact ⟨hk, hx⟩
  · rintro ⟨hk, hx⟩
    exact ⟨w.1, hk, except_bind_ok_iff.mpr ⟨w.2, hx, rfl⟩⟩

theorem encodes_items {vs : List (LiveVal ε)} {w : Wire} :
    (∃ n, (swizzle.swizzleItems oidFor vs >>= fun ns => pure (Native.list ns)) = .ok n ∧
      encodeNative textOf n = .ok w) ↔
      ∃ ws, w = .array ws ∧ List.Forall₂ (Encodes oidFor textOf) vs ws := by
  constructor
  · rintro ⟨n, hn, hw⟩
    rcases except_bind_ok_iff.mp hn with ⟨ns, hns, h⟩
    cases h
    rw [encodeNative, except_bind_ok_iff] at hw
    rcases hw with ⟨ws, hws, h⟩
    cases h
    exact ⟨ws, rfl, (forall₂_comp vs ws).mp
      ⟨ns, (swizzleItems_ok_iff vs ns).mp hns, (encodeItems_ok_iff ns ws).mp hws⟩⟩
  · rintro ⟨ws, rfl, h⟩
    rcases (forall₂_comp vs ws).mpr h with ⟨ns, hns, hws⟩
    refine ⟨.list ns, except_bind_ok_iff.mpr ⟨ns, (swizzleItems_ok_iff vs ns).mpr hns, rfl⟩, ?_⟩
    rw [encodeNative, except_bind_ok_iff]
    exact ⟨ws, (encodeItems_ok_iff ns ws).mpr hws, rfl⟩

theorem encodes_list {vs : List (LiveVal ε)} {w : Wire} :
    Encodes oidFor textOf (.list vs) w ↔
      ∃ ws, w = .array ws ∧ List.Forall₂ (Encodes oidFor textOf) vs ws := encodes_items

theorem encodes_tuple {vs : List (LiveVal ε)} {w : Wire} :
    Encodes oidFor textOf (.tuple vs) w ↔
      ∃ ws, w = .array ws ∧ List.Forall₂ (Encodes oidFor textOf) vs ws := encodes_items

theorem encodes_dict {es : List (Leaf × LiveVal ε)} {w : Wire} :
    Encodes oidFor textOf (.dict es) w ↔ ∃ ws, w = .map ws ∧
      List.Forall₂ (fun e x => encodeLeaf textOf e.1 = .ok x.1 ∧ Encodes oidFor textOf e.2 x.2)
        es ws := by
  have hcomp : ∀ ws, (∃ ns, swizzle.swizzleEntries oidFor es = .ok ns ∧
      encodeNative.encodeEntries textOf ns = .ok ws) ↔ List.Forall₂ (fun e x =>
        encodeLeaf textOf e.1 = .ok x.1 ∧ Encodes oidFor textOf e.2 x.2) es ws := by
    intro ws
    simp only [swizzleEntries_ok_iff, encodeEntries_ok_iff]
    rw [forall₂_comp]
    refine iff_of_eq (congrArg (fun r => List.Forall₂ r es ws) ?_)
    funext e x
    refine propext ⟨?_, ?_⟩
    · rintro ⟨n, ⟨hn, hk⟩, hkey, hw⟩
      exact ⟨hk ▸ hkey, n.2, hn, hw⟩
    · rintro ⟨hkey, n, hn, hw⟩
      exact ⟨(e.1, n), ⟨hn, rfl⟩, hkey, hw⟩
  constructor
  · rintro ⟨n, hn, hw⟩
    rw [swizzle, except_bind_ok_iff] at hn
    rcases hn with ⟨ns, hns, h⟩
    cases h
    rw [encodeNative, except_bind_ok_iff] at hw
    rcases hw with ⟨ws, hws, h⟩
    cases h
    exact ⟨ws, rfl, (hcomp ws).mp ⟨ns, hns, hws⟩⟩
  · rintro ⟨ws, rfl, h⟩
    rcases (hcomp ws).mpr h with ⟨ns, hns, hws⟩
    refine ⟨.dict ns, ?_, ?_⟩
    · rw [swizzle, except_bind_ok_iff]
      exact ⟨ns, hns, rfl⟩
    · rw [encodeNative, except_bind_ok_iff]
      exact ⟨ws, hws, rfl⟩

/-- A reference is encoded when its target has a number that fits. -/
theorem encodes_ref {e : ε} {w : Wire} :
    (∃ n, (oidFor e >>= fun k => refExt k) = .ok n ∧ encodeNative textOf n = .ok w) ↔
      ∃ k, oidFor e = .ok k ∧ IsOid k ∧ w = .ext refExtCode (packBE 8 (k % 2 ^ 64).toNat) := by
  constructor
  · rintro ⟨n, hn, hw⟩
    rcases except_bind_ok_iff.mp hn with ⟨k, hk, h⟩
    rcases refExt_ok_iff.mp h with ⟨hoid, rfl⟩
    cases hw
    exact ⟨k, hk, hoid, rfl⟩
  · rintro ⟨k, hk, hoid, rfl⟩
    exact ⟨_, except_bind_ok_iff.mpr ⟨k, hk, refExt_ok_iff.mpr ⟨hoid, rfl⟩⟩, rfl⟩

theorem encodes_unloaded {n : ℤ} {w : Wire} :
    Encodes oidFor textOf (.lazy none (some n)) w ↔
      IsOid n ∧ w = .ext refExtCode (packBE 8 (n % 2 ^ 64).toNat) := by
  constructor
  · rintro ⟨x, hx, hw⟩
    rcases refExt_ok_iff.mp hx with ⟨hoid, rfl⟩
    cases hw
    exact ⟨hoid, rfl⟩
  · rintro ⟨hoid, rfl⟩
    exact ⟨_, refExt_ok_iff.mpr ⟨hoid, rfl⟩, rfl⟩

theorem encodeLeaf_ok_iff (l : Leaf) : (∃ w, encodeLeaf textOf l = .ok w) ↔ l.Fits := by
  cases l with
  | int i =>
      simp only [encodeLeaf, Leaf.Fits]
      split_ifs with h
      · exact iff_of_true ⟨_, rfl⟩ h
      · exact iff_of_false (fun ⟨w, hw⟩ => nomatch hw) h
  | _ => exact iff_of_true ⟨_, rfl⟩ trivial

theorem encodes_leaf_iff (l : Leaf) : (∃ w, Encodes oidFor textOf (.leaf l) w) ↔ l.Fits := by
  have hleaf : ∀ k : Leaf, swizzleLeaf k = .leaf k →
      ((∃ w, Encodes oidFor textOf (.leaf k) w) ↔ ∃ w, encodeLeaf textOf k = .ok w) := by
    intro k hk
    constructor
    · rintro ⟨w, n, hn, hw⟩
      rw [swizzle, hk] at hn
      cases hn
      rw [encodeNative, except_bind_ok_iff] at hw
      rcases hw with ⟨x, hx, -⟩
      exact ⟨x, hx⟩
    · rintro ⟨x, hx⟩
      refine ⟨.leaf x, .leaf k, by rw [swizzle, hk], ?_⟩
      rw [encodeNative, except_bind_ok_iff]
      exact ⟨x, hx, rfl⟩
  cases l with
  | naive d => exact iff_of_true ⟨_, _, rfl, rfl⟩ trivial
  | date d => exact iff_of_true ⟨_, _, rfl, rfl⟩ trivial
  | time t => exact iff_of_true ⟨_, _, rfl, rfl⟩ trivial
  | decimal d => exact iff_of_true ⟨_, _, rfl, rfl⟩ trivial
  | _ => exact (hleaf _ rfl).trans (encodeLeaf_ok_iff _)

theorem encodes_entity_iff {e : ε} :
    (∃ w : Wire, ∃ n, (oidFor e >>= fun k => refExt k) = .ok n ∧ encodeNative textOf n = .ok w) ↔
      ∃ k, oidFor e = .ok k ∧ IsOid k := by
  constructor
  · rintro ⟨w, hw⟩
    rcases encodes_ref.mp hw with ⟨k, hk, hoid, -⟩
    exact ⟨k, hk, hoid⟩
  · rintro ⟨k, hk, hoid⟩
    exact ⟨_, encodes_ref.mpr ⟨k, hk, hoid, rfl⟩⟩

/-- The items of a sequence are encoded if each of them is. -/
theorem encodes_items_iff {vs : List (LiveVal ε)}
    (ih : ∀ v ∈ vs, ((∃ w, Encodes oidFor textOf v w) ↔ ∀ u ∈ v.nodes, u.Accepted oidFor)) :
    (∃ ws, List.Forall₂ (Encodes oidFor textOf) vs ws) ↔
      ∀ v ∈ vs, ∀ u ∈ v.nodes, u.Accepted oidFor := by
  rw [exists_forall₂_iff]
  exact forall₂_congr ih

/-- What the encoding accepts. -/
theorem encodes_iff (v : LiveVal ε) :
    (∃ w, Encodes oidFor textOf v w) ↔ ∀ u ∈ v.nodes, u.Accepted oidFor := by
  -- A value without parts is its own only node.
  have hsingle : ∀ u : LiveVal ε, u.nodes = [u] → ((∃ w, Encodes oidFor textOf u w) ↔
      u.Accepted oidFor) → ((∃ w, Encodes oidFor textOf u w) ↔ ∀ x ∈ u.nodes, x.Accepted oidFor) := by
    intro u hu h
    rw [hu, List.forall_mem_singleton]
    exact h
  induction v using LiveVal.induction_parts with
  | hleaf l => exact hsingle _ rfl (encodes_leaf_iff l)
  | hentity e => exact hsingle _ rfl encodes_entity_iff
  | hlazy target oid =>
      refine hsingle _ rfl ?_
      cases target with
      | some e => exact encodes_entity_iff
      | none =>
          cases oid with
          | none => exact iff_of_false (fun ⟨w, n, hn, _⟩ => nomatch hn) (fun h => h)
          | some n =>
              constructor
              · exact fun ⟨w, hw⟩ => (encodes_unloaded.mp hw).1
              · exact fun hoid => ⟨_, encodes_unloaded.mpr ⟨hoid, rfl⟩⟩
  | hhandle d => exact hsingle _ rfl (iff_of_false (fun ⟨w, n, hn, _⟩ => nomatch hn) (fun h => h))
  | hsource n cs => exact hsingle _ rfl (iff_of_false (fun ⟨w, n, hn, _⟩ => nomatch hn) (fun h => h))
  | hlist vs ih =>
      rw [LiveVal.forall_nodes_list, ← encodes_items_iff ih]
      constructor
      · rintro ⟨w, hw⟩
        rcases encodes_list.mp hw with ⟨ws, -, h⟩
        exact ⟨trivial, ws, h⟩
      · rintro ⟨-, ws, h⟩
        exact ⟨_, encodes_list.mpr ⟨ws, rfl, h⟩⟩
  | htuple vs ih =>
      rw [LiveVal.forall_nodes_tuple, ← encodes_items_iff ih]
      constructor
      · rintro ⟨w, hw⟩
        rcases encodes_tuple.mp hw with ⟨ws, -, h⟩
        exact ⟨trivial, ws, h⟩
      · rintro ⟨-, ws, h⟩
        exact ⟨_, encodes_tuple.mpr ⟨ws, rfl, h⟩⟩
  | hdict es ih =>
      -- A key is encoded as a leaf, whatever it is the key of.
      have hone : ∀ e ∈ es, (∃ x : WireLeaf × Wire, encodeLeaf textOf e.1 = .ok x.1 ∧
          Encodes oidFor textOf e.2 x.2) ↔
          e.1.Fits ∧ ∀ u ∈ e.2.nodes, u.Accepted oidFor := by
        intro e he
        refine Iff.trans ?_ (and_congr (@encodeLeaf_ok_iff textOf e.1) (ih e he))
        constructor
        · exact fun ⟨x, hk, hv⟩ => ⟨⟨x.1, hk⟩, x.2, hv⟩
        · exact fun ⟨⟨k, hk⟩, w, hv⟩ => ⟨(k, w), hk, hv⟩
      have hentries : (∃ ws, List.Forall₂ (fun e (x : WireLeaf × Wire) =>
          encodeLeaf textOf e.1 = .ok x.1 ∧ Encodes oidFor textOf e.2 x.2) es ws) ↔
          (∀ e ∈ es, e.1.Fits) ∧ ∀ e ∈ es, ∀ u ∈ e.2.nodes, u.Accepted oidFor := by
        rw [exists_forall₂_iff, ← forall₂_and]
        exact forall₂_congr hone
      rw [LiveVal.forall_nodes_dict]
      refine Iff.trans ?_ hentries
      constructor
      · rintro ⟨w, hw⟩
        rcases encodes_dict.mp hw with ⟨ws, -, h⟩
        exact ⟨ws, h⟩
      · rintro ⟨ws, h⟩
        exact ⟨_, encodes_dict.mpr ⟨ws, rfl, h⟩⟩

end Encoding

section Decoding

variable {ε : Type} {oidFor : ε → Except CodecErr ℤ} {textOf : Leaf → Text}

theorem decodeItems_ok_iff (ws : List Wire) (ds : List Decoded) :
    decode.decodeItems ws = .ok ds ↔ List.Forall₂ (fun w d => decode w = .ok d) ws ds :=
  @loop_ok_iff _ _ _ decode decode.decodeItems rfl (fun _ _ => rfl) ws ds

theorem decodeEntries_ok_iff (ws : List (WireLeaf × Wire)) : ∀ ds : List (Leaf × Decoded),
    decode.decodeEntries ws = .ok ds ↔ ds.map Prod.fst = ws.map (fun x => decodeLeaf x.1) ∧
      List.Forall₂ (fun w d => decode w = .ok d) (ws.map Prod.snd) (ds.map Prod.snd) := by
  induction ws with
  | nil =>
      intro ds
      rw [decode.decodeEntries]
      cases ds with
      | nil => simp [pure, Except.pure]
      | cons d ds => simp [pure, Except.pure]
  | cons x ws ih =>
      intro ds
      rw [decode.decodeEntries, except_bind_ok_iff]
      constructor
      · rintro ⟨d, hd, h⟩
        rcases except_bind_ok_iff.mp h with ⟨rest, hrest, h⟩
        cases h
        rcases (ih rest).mp hrest with ⟨hkeys, hvalues⟩
        refine ⟨?_, List.Forall₂.cons hd hvalues⟩
        rw [List.map_cons, List.map_cons, hkeys]
      · rintro ⟨hkeys, hvalues⟩
        cases ds with
        | nil => simp at hkeys
        | cons d rest =>
            rw [List.map_cons, List.map_cons, List.cons.injEq] at hkeys
            rw [List.map_cons, List.map_cons, List.forall₂_cons] at hvalues
            refine ⟨d.2, hvalues.1, except_bind_ok_iff.mpr
              ⟨rest, (ih rest).mpr ⟨hkeys.2, hvalues.2⟩, ?_⟩⟩
            rw [← hkeys.1]
            rfl

/-- A text that is read back from its bytes by its own reader. -/
theorem readAscii {α : Type} {t : Text} (ht : Ascii t) {read : Text → Option α} {a : α}
    (h : read t = some a) (f : α → Decoded) :
    (decodeAscii (encodeAscii t) >>= fun text => orRaise (read text) >>= fun a => pure (f a)) =
      .ok (f a) := by
  rw [decodeAscii_encodeAscii ht]
  change (orRaise (read t) >>= fun a => pure (f a)) = .ok (f a)
  rw [h]
  rfl

/-- What the hook makes of a date, a naive datetime, a time and a decimal. -/
theorem extHook_swizzleLeaf {l : Leaf} (h : l.isText = true) : ∃ code data,
    swizzleLeaf l = .ext code data ∧ extHook code data = .ok (.leaf l) := by
  cases l with
  | naive d => exact ⟨_, _, rfl, readAscii (NaiveDatetime.ascii_isoformat d)
      (NaiveDatetime.fromisoformat_isoformat d) (fun d => .leaf (.naive d))⟩
  | date d => exact ⟨_, _, rfl, readAscii (Date.ascii_text d) (Date.fromisoformat_isoformat d)
      (fun d => .leaf (.date d))⟩
  | time t => exact ⟨_, _, rfl, readAscii (Time.ascii_isoformat t) (Time.fromisoformat_isoformat t)
      (fun t => .leaf (.time t))⟩
  | decimal d => exact ⟨_, _, rfl, readAscii (Decimal.ascii_str d) (Decimal.parse_str d)
      (fun d => .leaf (.decimal d))⟩
  | _ => cases h

/-- A scalar with a type of its own goes through the encoder and back. -/
theorem decodeLeaf_encodeLeaf {l : Leaf} (h : l.isText = false) {w : WireLeaf}
    (hw : encodeLeaf textOf l = .ok w) : decodeLeaf w = l.normal := by
  cases l with
  | int i =>
      simp only [encodeLeaf] at hw
      split_ifs at hw
      cases hw
      rfl
  | naive d => cases h
  | date d => cases h
  | time t => cases h
  | decimal d => cases h
  | _ =>
      cases hw
      rfl

/-- The decoder makes no date, naive datetime, time or decimal of a scalar item. -/
theorem isText_decodeLeaf (w : WireLeaf) : (decodeLeaf w).isText = false := by
  cases w <;> rfl

theorem isText_normal (l : Leaf) : l.normal.isText = l.isText := by cases l <;> rfl

theorem decode_leaf {l : Leaf} {w : Wire} (h : Encodes oidFor textOf (.leaf l) w) :
    decode w = .ok (.leaf l.normal) := by
  rcases h with ⟨n, hn, hw⟩
  cases hn
  by_cases htext : l.isText = true
  · rcases extHook_swizzleLeaf htext with ⟨code, data, hleaf, hhook⟩
    rw [hleaf] at hw
    cases hw
    have hnormal : l.normal = l := by
      cases l <;> first | rfl | cases htext
    rw [decode, hhook, hnormal]
  · rw [Bool.not_eq_true] at htext
    have hleaf : swizzleLeaf l = .leaf l := by
      cases l <;> first | rfl | cases htext
    rw [hleaf, encodeNative, except_bind_ok_iff] at hw
    rcases hw with ⟨x, hx, h⟩
    cases h
    rw [decode, decodeLeaf_encodeLeaf htext hx]

end Decoding

section Dictionaries

theorem sameKey_normal (a b : Leaf) (ha : ∀ x, a ≠ .bytearray x) (hb : ∀ x, b ≠ .bytearray x) :
    a.normal.sameKey b.normal = a.sameKey b := by
  have hkey : ∀ l : Leaf, (∀ x, l ≠ .bytearray x) → l.normal.hashKey = l.hashKey := by
    intro l hl
    cases l with
    | bytearray x => exact absurd rfl (hl x)
    | _ => rfl
  rw [Leaf.sameKey, Leaf.sameKey, hkey a ha, hkey b hb]

/-- A key that is not there yet goes to the end. -/
theorem setKey_of_new {d : List (Leaf × Decoded)} {e : Leaf × Decoded}
    (h : ∀ x ∈ d, x.1.sameKey e.1 = false) : setKey d e = d ++ [e] := by
  rw [setKey, if_neg]
  rw [List.any_eq_true]
  rintro ⟨x, hx, hsame⟩
  rw [h x hx] at hsame
  cases hsame

/-- Entries with distinct keys are a dictionary as they are. -/
theorem foldl_setKey (es : List (Leaf × Decoded)) : ∀ d : List (Leaf × Decoded),
    (es.map Prod.fst).Pairwise (fun a b => a.sameKey b = false) →
    (∀ x ∈ d, ∀ e ∈ es, x.1.sameKey e.1 = false) → es.foldl setKey d = d ++ es := by
  induction es with
  | nil => exact fun d _ _ => (List.append_nil d).symm
  | cons e es ih =>
      intro d hdistinct hnew
      rw [List.map_cons, List.pairwise_cons] at hdistinct
      rw [List.foldl_cons, setKey_of_new fun x hx => hnew x hx e List.mem_cons_self,
        ih _ hdistinct.2 ?_, List.append_assoc, List.singleton_append]
      intro x hx f hf
      rcases List.mem_append.mp hx with hx | hx
      · exact hnew x hx f (List.mem_cons_of_mem e hf)
      · rw [List.mem_singleton] at hx
        rw [hx]
        exact hdistinct.1 f.1 (List.mem_map_of_mem hf)

theorem buildDict_of_distinct {es : List (Leaf × Decoded)}
    (h : (es.map Prod.fst).Pairwise (fun a b => a.sameKey b = false)) : buildDict es = es := by
  rw [buildDict, foldl_setKey es [] h fun x hx => absurd hx List.not_mem_nil, List.nil_append]

theorem mem_keys_setKey {d : List (Leaf × Decoded)} {e : Leaf × Decoded} {k : Leaf}
    (h : k ∈ (setKey d e).map Prod.fst) : k ∈ d.map Prod.fst ∨ k = e.1 := by
  unfold setKey at h
  split_ifs at h
  · rw [List.map_map] at h
    rcases List.mem_map.mp h with ⟨x, hx, rfl⟩
    left
    refine List.mem_map.mpr ⟨x, hx, ?_⟩
    rw [Function.comp_apply]
    split_ifs <;> rfl
  · rw [List.map_append, List.mem_append] at h
    exact h.imp id fun hk => List.mem_singleton.mp hk

/-- Every key of a dictionary is the key of one of the entries it was made from. -/
theorem mem_keys_buildDict {es : List (Leaf × Decoded)} {k : Leaf}
    (h : k ∈ (buildDict es).map Prod.fst) : k ∈ es.map Prod.fst := by
  have hall : ∀ (fs d : List (Leaf × Decoded)), k ∈ (fs.foldl setKey d).map Prod.fst →
      k ∈ d.map Prod.fst ∨ k ∈ fs.map Prod.fst := by
    intro fs
    induction fs with
    | nil => exact fun d hk => Or.inl hk
    | cons f fs ih =>
        intro d hk
        rcases ih _ hk with hk | hk
        · rcases mem_keys_setKey hk with hk | rfl
          · exact Or.inl hk
          · exact Or.inr List.mem_cons_self
        · exact Or.inr (List.mem_cons_of_mem _ hk)
  rcases hall es [] h with hk | hk
  · exact absurd hk List.not_mem_nil
  · exact hk

end Dictionaries

section Arrival

variable {ε : Type} {oidFor : ε → Except CodecErr ℤ} {textOf : Leaf → Text}

theorem decode_array (ws : List Wire) (d : Decoded) : decode (.array ws) = .ok d ↔
    ∃ ds, d = .list ds ∧ List.Forall₂ (fun w d => decode w = .ok d) ws ds := by
  rw [decode, except_bind_ok_iff]
  constructor
  · rintro ⟨ds, hds, h⟩
    cases h
    exact ⟨ds, rfl, (decodeItems_ok_iff ws ds).mp hds⟩
  · rintro ⟨ds, rfl, h⟩
    exact ⟨ds, (decodeItems_ok_iff ws ds).mpr h, rfl⟩

theorem decode_map (ws : List (WireLeaf × Wire)) (d : Decoded) : decode (.map ws) = .ok d ↔
    ∃ ds, d = .dict (buildDict ds) ∧ decode.decodeEntries ws = .ok ds := by
  rw [decode, except_bind_ok_iff]
  constructor
  · rintro ⟨ds, hds, h⟩
    cases h
    exact ⟨ds, rfl, hds⟩
  · rintro ⟨ds, rfl, h⟩
    exact ⟨ds, h, rfl⟩

/-- A reference arrives as the number of its target. -/
theorem arrives_ref {v : LiveVal ε} {n : ℤ} (hoid : IsOid n)
    (harrives : Arrives oidFor v (.ref n)) : ∃ d,
    decode (.ext refExtCode (packBE 8 (n % 2 ^ 64).toNat)) = .ok d ∧ Arrives oidFor v d :=
  ⟨.ref n, extHook_ref hoid, harrives⟩

/-- Keys that have a type are the keys of the dictionary that is decoded. -/
theorem keys_of_encoded {es : List (Leaf × LiveVal ε)} {ws : List (WireLeaf × Wire)}
    (h : List.Forall₂ (fun e x => encodeLeaf textOf e.1 = .ok x.1 ∧
      Encodes oidFor textOf e.2 x.2) es ws) (htyped : ∀ e ∈ es, e.1.isText = false) :
    ws.map (fun x => decodeLeaf x.1) = es.map fun e => e.1.normal := by
  induction h with
  | nil => rfl
  | cons hex hrest ih =>
      rw [List.map_cons, List.map_cons, ih fun e he => htyped e (List.mem_cons_of_mem _ he),
        decodeLeaf_encodeLeaf (htyped _ List.mem_cons_self) hex.1]

/-- A dictionary arrives when its keys have types and its values arrive. -/
theorem arrives_dict {es : List (Leaf × LiveVal ε)} {ws : List (WireLeaf × Wire)}
    (hkeyed : (LiveVal.dict es).Keyed)
    (h : List.Forall₂ (fun e x => encodeLeaf textOf e.1 = .ok x.1 ∧
      Encodes oidFor textOf e.2 x.2) es ws) :
    (∃ d, decode (.map ws) = .ok d ∧ Arrives oidFor (.dict es) d) ↔
      (∀ e ∈ es, e.1.isText = false) ∧
        ∃ ds, List.Forall₂ (fun w d => decode w = .ok d) (ws.map Prod.snd) ds ∧
          List.Forall₂ (Arrives oidFor) (es.map Prod.snd) ds := by
  rcases hkeyed with ⟨hdistinct, hhash⟩
  -- With typed keys nothing is lost when the dictionary is built.
  have hbuild : (∀ e ∈ es, e.1.isText = false) → ∀ fs : List (Leaf × Decoded),
      fs.map Prod.fst = ws.map (fun x => decodeLeaf x.1) → buildDict fs = fs := by
    intro htyped fs hfs
    refine buildDict_of_distinct ?_
    rw [hfs, keys_of_encoded h htyped, List.pairwise_map]
    rw [List.pairwise_map] at hdistinct
    refine hdistinct.imp_of_mem fun {a b} ha hb hab => ?_
    rw [sameKey_normal a.1 b.1 (hhash a ha) (hhash b hb), hab]
  constructor
  · -- a key that was written as text comes back as text, and is not the one that was stored
    rintro ⟨d, hd, harrives⟩
    rcases (decode_map ws d).mp hd with ⟨fs, rfl, hfs⟩
    rcases (decodeEntries_ok_iff ws fs).mp hfs with ⟨hkeys, hvalues⟩
    cases harrives with
    | dict hks hvs =>
        have htyped : ∀ e ∈ es, e.1.isText = false := by
          intro e he
          have hmem : e.1.normal ∈ (buildDict fs).map Prod.fst := by
            rw [hks]
            exact List.mem_map_of_mem he
          have hfrom := mem_keys_buildDict hmem
          rw [hkeys] at hfrom
          rcases List.mem_map.mp hfrom with ⟨x, -, hx⟩
          rw [← isText_normal, ← hx]
          exact isText_decodeLeaf x.1
        rw [hbuild htyped fs hkeys] at hvs
        exact ⟨htyped, _, hvalues, hvs⟩
  · rintro ⟨htyped, ds, hds, harrives⟩
    have hlength : (ws.map fun x => decodeLeaf x.1).length = ds.length := by
      rw [List.length_map, ← hds.length_eq, List.length_map]
    have hfst : ((ws.map fun x => decodeLeaf x.1).zip ds).map Prod.fst =
        ws.map fun x => decodeLeaf x.1 := List.map_fst_zip hlength.le
    have hsnd : ((ws.map fun x => decodeLeaf x.1).zip ds).map Prod.snd = ds :=
      List.map_snd_zip hlength.ge
    refine ⟨_, (decode_map ws _).mpr ⟨_, rfl, (decodeEntries_ok_iff ws _).mpr ⟨hfst, ?_⟩⟩, ?_⟩
    · rw [hsnd]
      exact hds
    · rw [hbuild htyped _ hfst]
      refine Arrives.dict ?_ ?_
      · rw [hfst, keys_of_encoded h htyped]
      · rw [hsnd]
        exact harrives

/-- What is encoded arrives unless some dictionary has a key that is written as text. -/
theorem arrives_iff (v : LiveVal ε) : ∀ w, (∀ u ∈ v.nodes, u.Keyed) →
    Encodes oidFor textOf v w →
      ((∃ d, decode w = .ok d ∧ Arrives oidFor v d) ↔ ∀ u ∈ v.nodes, u.Typed) := by
  -- A value without parts always arrives: only the keys of a dictionary may not.
  have hsingle : ∀ (u : LiveVal ε) (w : Wire), u.nodes = [u] → u.Typed →
      (∃ d, decode w = .ok d ∧ Arrives oidFor u d) →
      ((∃ d, decode w = .ok d ∧ Arrives oidFor u d) ↔ ∀ x ∈ u.nodes, x.Typed) := by
    intro u w hu htyped h
    rw [hu, List.forall_mem_singleton]
    exact iff_of_true h htyped
  induction v using LiveVal.induction_parts with
  | hleaf l =>
      intro w hkeyed hw
      exact hsingle _ w rfl trivial ⟨_, decode_leaf hw, Arrives.leaf l⟩
  | hentity e =>
      intro w hkeyed hw
      rcases encodes_ref.mp hw with ⟨n, hn, hoid, rfl⟩
      exact hsingle _ _ rfl trivial (arrives_ref hoid (Arrives.entity e n hn))
  | hlazy target oid =>
      intro w hkeyed hw
      cases target with
      | some e =>
          rcases encodes_ref.mp hw with ⟨n, hn, hoid, rfl⟩
          exact hsingle _ _ rfl trivial (arrives_ref hoid (Arrives.loaded e oid n hn))
      | none =>
          cases oid with
          | none => exact absurd hw (fun ⟨n, hn, _⟩ => nomatch hn)
          | some n =>
              rcases encodes_unloaded.mp hw with ⟨hoid, rfl⟩
              exact hsingle _ _ rfl trivial (arrives_ref hoid (Arrives.unloaded n))
  | hhandle d => exact fun w _ ⟨n, hn, _⟩ => nomatch hn
  | hsource n cs => exact fun w _ ⟨n, hn, _⟩ => nomatch hn
  | hlist vs ih =>
      intro w hkeyed hw
      rcases encodes_list.mp hw with ⟨ws, rfl, hws⟩
      rw [LiveVal.forall_nodes_list] at hkeyed ⊢
      have hthrough := forall₂_through hws fun v hv w hw => ih v hv w (hkeyed.2 v hv) hw
      rw [← hthrough]
      constructor
      · rintro ⟨d, hd, harrives⟩
        rcases (decode_array ws d).mp hd with ⟨ds, rfl, hds⟩
        cases harrives with
        | list h => exact ⟨trivial, ds, hds, h⟩
      · rintro ⟨-, ds, hds, h⟩
        exact ⟨.list ds, (decode_array ws _).mpr ⟨ds, rfl, hds⟩, Arrives.list h⟩
  | htuple vs ih =>
      intro w hkeyed hw
      rcases encodes_tuple.mp hw with ⟨ws, rfl, hws⟩
      rw [LiveVal.forall_nodes_tuple] at hkeyed ⊢
      have hthrough := forall₂_through hws fun v hv w hw => ih v hv w (hkeyed.2 v hv) hw
      rw [← hthrough]
      constructor
      · rintro ⟨d, hd, harrives⟩
        rcases (decode_array ws d).mp hd with ⟨ds, rfl, hds⟩
        cases harrives with
        | tuple h => exact ⟨trivial, ds, hds, h⟩
      · rintro ⟨-, ds, hds, h⟩
        exact ⟨.list ds, (decode_array ws _).mpr ⟨ds, rfl, hds⟩, Arrives.tuple h⟩
  | hdict es ih =>
      intro w hkeyed hw
      rcases encodes_dict.mp hw with ⟨ws, rfl, hws⟩
      rw [LiveVal.forall_nodes_dict] at hkeyed ⊢
      rw [arrives_dict hkeyed.1 hws]
      refine and_congr_right fun _ => ?_
      have hvalues : List.Forall₂ (Encodes oidFor textOf) (es.map Prod.snd) (ws.map Prod.snd) := by
        rw [List.forall₂_map_left_iff, List.forall₂_map_right_iff]
        exact hws.imp fun e x hex => hex.2
      rw [forall₂_through (Q := fun v => ∀ u ∈ v.nodes, u.Typed) hvalues]
      · simp only [List.mem_map, forall_exists_index, and_imp, forall_apply_eq_imp_iff₂]
      · intro v hv w hvw
        rcases List.mem_map.mp hv with ⟨e, he, rfl⟩
        exact ih e he w (hkeyed.2 e he) hvw

end Arrival

section Payloads

variable {ε : Type} {env : CodecEnv ε}

/-- What becomes of one field. -/
def CodecEnv.Sends (env : CodecEnv ε) (i : Nat) (v : LiveVal ε) (w : Wire) : Prop :=
  ∃ n, encodeField env i v = .ok n ∧ encodeNative env.textOf n = .ok w

theorem sends_inline {i : Nat} {v : LiveVal ε} {w : Wire} (h : ¬env.outOfLine i v) :
    env.Sends i v w ↔ Encodes env.oidFor env.textOf v w := by
  have hfield : encodeField env i v = swizzle env.oidFor v := by
    unfold encodeField
    split
    · rfl
    · next heq => exact absurd ⟨heq, by simp⟩ h
    · next heq hnone _ => exact absurd ⟨heq, hnone⟩ h
    · rfl
  unfold CodecEnv.Sends Encodes
  rw [hfield]

/-- A descriptor is sent when it fits. -/
theorem blobExt_encodes {d : BlobDescriptor} {w : Wire} :
    (∃ n, blobExt d = .ok n ∧ encodeNative env.textOf n = .ok w) ↔ d.Fits ∧ w = .ext blobExtCode
      (packBE 8 (d.oid % 2 ^ 64).toNat ++ packBE 8 d.size ++ d.hash) := by
  constructor
  · rintro ⟨n, hn, hw⟩
    rcases blobExt_ok_iff.mp hn with ⟨hfits, rfl⟩
    cases hw
    exact ⟨hfits, rfl⟩
  · rintro ⟨hfits, rfl⟩
    exact ⟨_, blobExt_ok_iff.mpr ⟨hfits, rfl⟩, rfl⟩

theorem sends_outOfLine {i : Nat} {v : LiveVal ε} {w : Wire} (h : env.outOfLine i v) :
    env.Sends i v w ↔ ∃ d, env.Describes i v d ∧ d.Fits ∧ w = .ext blobExtCode
      (packBE 8 (d.oid % 2 ^ 64).toNat ++ packBE 8 d.size ++ d.hash) := by
  -- Of the descriptor alone: a handle has it, and a value is given it by the sink.
  have hfield : ∀ n, encodeField env i v = .ok n ↔ ∃ d, env.Describes i v d ∧ blobExt d = .ok n := by
    intro n
    unfold encodeField
    split
    · next hnone => exact absurd rfl h.2
    · next d hpos =>
        constructor
        · exact fun hn => ⟨d, Or.inl rfl, hn⟩
        · rintro ⟨d', hd', hn⟩
          rcases hd' with hd' | ⟨hd', -⟩
          · cases hd'
            exact hn
          · exact absurd rfl (hd' d)
    · next hpos hnone hhandle =>
        -- Bytes or a source: without a sink nothing describes them.
        cases hsink : env.blobSink with
        | none =>
            refine iff_of_false (fun hn => nomatch hn) ?_
            rintro ⟨d, hd | ⟨-, sink, hsome, -⟩, -⟩
            · exact hhandle d hd
            · rw [hsink] at hsome
              cases hsome
        | some sink =>
            rw [except_bind_ok_iff]
            constructor
            · exact fun ⟨d, hd, hn⟩ => ⟨d, Or.inr ⟨hhandle, sink, hsink, hd⟩, hn⟩
            · rintro ⟨d, hd | ⟨-, sink', hsome, hd⟩, hn⟩
              · exact absurd hd (hhandle d)
              · rw [hsink] at hsome
                cases hsome
                exact ⟨d, hd, hn⟩
    · next hinline => exact absurd h.1 (by rw [hinline]; simp)
  constructor
  · rintro ⟨n, hn, hw⟩
    rcases (hfield n).mp hn with ⟨d, hd, hn⟩
    exact ⟨d, hd, blobExt_encodes.mp ⟨n, hn, hw⟩⟩
  · rintro ⟨d, hd, hsent⟩
    rcases blobExt_encodes.mpr hsent with ⟨n, hn, hw⟩
    exact ⟨n, (hfield n).mpr ⟨d, hd, hn⟩, hw⟩

/-- Which field values are sent. -/
theorem sends_iff (i : Nat) (v : LiveVal ε) : (∃ w, env.Sends i v w) ↔ env.Accepts i v := by
  by_cases h : env.outOfLine i v
  · simp only [sends_outOfLine h]
    constructor
    · exact fun ⟨w, d, hd, hfits, _⟩ => ⟨fun _ => ⟨d, hd, hfits⟩, fun hn => absurd h hn⟩
    · intro hacc
      rcases hacc.1 h with ⟨d, hd, hfits⟩
      exact ⟨_, d, hd, hfits, rfl⟩
  · simp only [sends_inline h]
    rw [encodes_iff]
    exact ⟨fun hv => ⟨fun hh => absurd hh h, fun _ => hv⟩, fun hacc => hacc.2 h⟩

/-- Which of the field values that are sent arrive. -/
theorem arrivesAt_iff {i : Nat} {v : LiveVal ε} {w : Wire} (hkeyed : ∀ u ∈ v.nodes, u.Keyed)
    (hw : env.Sends i v w) : (∃ d, decode w = .ok d ∧ env.ArrivesAt i v d) ↔
      (¬env.outOfLine i v → ∀ u ∈ v.nodes, u.Typed) := by
  by_cases h : env.outOfLine i v
  · rcases (sends_outOfLine h).mp hw with ⟨d, hd, hfits, rfl⟩
    refine iff_of_true ⟨.blob d, extHook_blob hfits, ?_⟩ (fun hn => absurd h hn)
    exact ⟨fun _ => ⟨d, hd, rfl⟩, fun hn => absurd h hn⟩
  · have hiff := arrives_iff v w hkeyed ((sends_inline h).mp hw)
    constructor
    · rintro ⟨d, hd, harrives⟩ -
      exact hiff.mp ⟨d, hd, harrives.2 h⟩
    · intro htyped
      rcases hiff.mpr (htyped h) with ⟨d, hd, harrives⟩
      exact ⟨d, hd, fun hh => absurd hh h, fun _ => harrives⟩

theorem encodeFields_ok_iff (vs : List (LiveVal ε)) : ∀ i ns, encodeFields env i vs = .ok ns ↔
    List.Forall₂ (fun field n => encodeField env field.2 field.1 = .ok n) (vs.zipIdx i) ns := by
  induction vs with
  | nil =>
      intro i ns
      rw [encodeFields, List.zipIdx_nil, List.forall₂_nil_left_iff]
      constructor
      · intro h
        cases h
        rfl
      · rintro rfl
        rfl
  | cons v vs ih =>
      intro i ns
      rw [encodeFields, except_bind_ok_iff, List.zipIdx_cons, List.forall₂_cons_left_iff]
      constructor
      · rintro ⟨n, hn, h⟩
        rcases except_bind_ok_iff.mp h with ⟨rest, hrest, h⟩
        cases h
        exact ⟨n, rest, hn, (ih (i + 1) rest).mp hrest, rfl⟩
      · rintro ⟨n, rest, hn, hrest, rfl⟩
        exact ⟨n, hn, except_bind_ok_iff.mpr ⟨rest, (ih (i + 1) rest).mpr hrest, rfl⟩⟩

/-- A payload is the messages of its fields. -/
theorem encodePayload_ok_iff (vs : List (LiveVal ε)) (w : Wire) :
    encodePayload env vs = .ok w ↔ ∃ ws, w = .array ws ∧
      List.Forall₂ (fun field w => env.Sends field.2 field.1 w) vs.zipIdx ws := by
  rw [encodePayload, except_bind_ok_iff]
  constructor
  · rintro ⟨ns, hns, h⟩
    rw [encodeNative, except_bind_ok_iff] at h
    rcases h with ⟨ws, hws, h⟩
    cases h
    exact ⟨ws, rfl, (forall₂_comp _ ws).mp
      ⟨ns, (encodeFields_ok_iff vs 0 ns).mp hns, (encodeItems_ok_iff ns ws).mp hws⟩⟩
  · rintro ⟨ws, rfl, h⟩
    rcases (forall₂_comp _ ws).mpr h with ⟨ns, hns, hws⟩
    refine ⟨ns, (encodeFields_ok_iff vs 0 ns).mpr hns, ?_⟩
    rw [encodeNative, except_bind_ok_iff]
    exact ⟨ws, (encodeItems_ok_iff ns ws).mpr hws, rfl⟩

theorem decodePayload_array (ws : List Wire) (ds : List Decoded) :
    decodePayload (.array ws) = .ok ds ↔ List.Forall₂ (fun w d => decode w = .ok d) ws ds := by
  unfold decodePayload
  constructor
  · intro h
    split at h
    · next heq =>
        cases h
        rcases (decode_array ws _).mp heq with ⟨ds, hds, hws⟩
        cases hds
        exact hws
    · cases h
    · cases h
  · intro h
    rw [(decode_array ws (.list ds)).mpr ⟨ds, rfl, h⟩]

theorem returns_iff {vs : List (LiveVal ε)} (hkeyed : ∀ v ∈ vs, ∀ u ∈ v.nodes, u.Keyed) {w : Wire}
    (hw : encodePayload env vs = .ok w) : Returns env vs ↔
      ∀ field ∈ vs.zipIdx, ¬env.outOfLine field.2 field.1 → ∀ u ∈ field.1.nodes, u.Typed := by
  rcases (encodePayload_ok_iff vs w).mp hw with ⟨ws, rfl, hws⟩
  have hone := fun field (hf : field ∈ vs.zipIdx) w hw =>
    @arrivesAt_iff _ env field.2 field.1 w (hkeyed field.1 (List.fst_mem_of_mem_zipIdx hf)) hw
  rw [← forall₂_through hws hone]
  constructor
  · rintro ⟨payload, ds, hpayload, hds, harrives⟩
    rw [hw, Except.ok.injEq] at hpayload
    rw [← hpayload] at hds
    exact ⟨ds, (decodePayload_array ws ds).mp hds, harrives⟩
  · rintro ⟨ds, hds, harrives⟩
    exact ⟨_, ds, hw, (decodePayload_array ws ds).mpr hds, harrives⟩

/-- What the payload accepts, field by field. -/
theorem encodePayload_accepts_iff (vs : List (LiveVal ε)) :
    (∃ w, encodePayload env vs = .ok w) ↔ ∀ field ∈ vs.zipIdx, env.Accepts field.2 field.1 := by
  have hfields : (∃ ws, List.Forall₂ (fun field w => env.Sends field.2 field.1 w) vs.zipIdx ws) ↔
      ∀ field ∈ vs.zipIdx, env.Accepts field.2 field.1 := by
    rw [exists_forall₂_iff]
    exact forall₂_congr fun field _ => sends_iff field.2 field.1
  rw [← hfields]
  constructor
  · rintro ⟨w, hw⟩
    rcases (encodePayload_ok_iff vs w).mp hw with ⟨ws, -, hws⟩
    exact ⟨ws, hws⟩
  · rintro ⟨ws, hws⟩
    exact ⟨_, (encodePayload_ok_iff vs _).mpr ⟨ws, rfl, hws⟩⟩

/-- Field values come back, unless the encoding refuses one of them, exactly when no
    dictionary in them has a key that is a date, a naive datetime, a time or a
    decimal. -/
theorem round_trip (env : CodecEnv ε) (vs : FieldValues ε) :
    RoundTrips env vs ↔ vs.Typed env := by
  unfold FieldValues.Typed
  rw [← encodePayload_accepts_iff]
  constructor
  · rintro (⟨e, he⟩ | hreturns) ⟨w, hw⟩
    · rw [he] at hw
      cases hw
    · exact (returns_iff vs.keyed hw).mp hreturns
  · intro htyped
    cases hw : encodePayload env vs.values with
    | error e => exact Or.inl ⟨e, hw⟩
    | ok w => exact Or.inr ((returns_iff vs.keyed hw).mpr (htyped ⟨w, hw⟩))

/-- No entities, no blob fields, and dates as their text. -/
def plainEnv : CodecEnv Empty where
  oidFor := fun e => nomatch e
  blobPositions := fun _ => false
  blobSink := none
  textOf := fun l => match l with
    | .date d => d.isoformat
    | _ => []

def newYear : Date := ⟨2024, 1, 1, by decide⟩

/-- A dictionary from a day to a number. -/
def byDay : FieldValues Empty where
  values := [.dict [(.date newYear, .leaf (.int 1))]]
  keyed := by
    intro v hv u hu
    rw [List.mem_singleton] at hv
    subst hv
    simp only [LiveVal.nodes, LiveVal.nodes.nodesIn, List.append_nil, List.mem_cons,
      List.not_mem_nil, or_false] at hu
    rcases hu with rfl | rfl
    · simp [LiveVal.Keyed]
    · trivial

/-- The day comes back as text. -/
theorem date_key_returns_as_text : ¬RoundTrips plainEnv byDay := by
  rintro (⟨e, he⟩ | ⟨payload, ds, hpayload, hds, harrives⟩)
  · cases he
  · cases hpayload
    cases hds
    rcases List.forall₂_cons.mp harrives with ⟨hfield, -⟩
    have hinline : ¬plainEnv.outOfLine 0 (.dict [(.date newYear, .leaf (.int 1))]) :=
      fun h => nomatch h.1
    cases hfield.2 hinline with
    | dict hkeys _ => cases hkeys

end Payloads

end DataCrystal
