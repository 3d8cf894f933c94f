import Mathlib.Data.List.Nodup
import Mathlib.Data.Finset.Dedup
import Mathlib.Data.List.Lemmas

/-!
# Insertion-Ordered Dictionaries

A finite map that remembers the order in which its keys arrived. Storing
under a key that is already present replaces the value where it stands, and
a new key goes to the end, so iterating a dictionary is iterating its keys in
order of first arrival.

The entries carry the proof that no key occurs twice. Every operation
re-establishes it, so no caller has to, and `get?_eq_some_iff` can then say
that looking a key up and finding its pair among the entries are the same
thing. The other lemmas are consequences of that one: they say what `get?`
returns after each operation, which is all a proof about a dictionary needs.

## Main definitions

* `Dict`: A dictionary, entries with distinct keys.
* `Dict.get?`: The value stored under a key.
* `Dict.set`: Storing a value under a key.
* `Dict.erase`: Dropping a key.
* `Dict.mapVal`: Rewriting every value, keeping the keys.
* `Dict.filter`, `Dict.filterKeys`: Keeping the pairs or keys that pass a test.
* `Dict.ofList`: Storing a list of pairs one after the other.

## Theorems

* `get?_eq_some_iff`: A lookup succeeds exactly on the stored pairs.
* `get?_set`: What a lookup returns after a store.
* `get?_erase`: What a lookup returns after a drop.
* `get?_mapVal`: What a lookup returns after rewriting the values.
* `get?_filter_eq_some_iff`, `get?_filterKeys`: What a lookup returns after
  filtering.
* `mem_keys_iff`: The keys are where a lookup succeeds.
* `get?_ofList_of_nodup`, `get?_ofList_const`: What is found after storing a
  list.
* `mapVal_set`, `mapVal_erase`: Rewriting the values after a store or a drop.
* `ext_of_keys`: A dictionary is its keys in order and their values.
-/

namespace DataCrystal

/-- A finite map with its keys in order of first arrival. -/
structure Dict (κ α : Type) where
  /-- The pairs, in order. -/
  entries : List (κ × α)
  /-- No key occurs twice. -/
  nodup : (entries.map Prod.fst).Nodup

namespace Dict

variable {κ α β : Type}

/-- The dictionary with no key. -/
def empty : Dict κ α := ⟨[], List.nodup_nil⟩

instance : Inhabited (Dict κ α) := ⟨empty⟩

/-- The keys, in order. -/
def keys (d : Dict κ α) : List κ := d.entries.map Prod.fst

/-- The values, in order of their keys. -/
def values (d : Dict κ α) : List α := d.entries.map Prod.snd

/-- Rewrite every value, keeping the keys where they are. -/
def mapVal (f : κ → α → β) (d : Dict κ α) : Dict κ β :=
  ⟨d.entries.map fun e => (e.1, f e.1 e.2), by
    rw [List.map_map]
    exact d.nodup⟩

/-- Keep the pairs that pass a test. -/
def filter (p : κ → α → Bool) (d : Dict κ α) : Dict κ α :=
  ⟨d.entries.filter fun e => p e.1 e.2,
    d.nodup.sublist (List.filter_sublist.map _)⟩

/-- Keep the keys that pass a test. -/
def filterKeys (p : κ → Bool) (d : Dict κ α) : Dict κ α := d.filter fun k _ => p k

theorem entries_injective {d e : Dict κ α} (h : d.entries = e.entries) : d = e := by
  cases d
  cases e
  simp only at h
  subst h
  rfl

theorem nodup_keys (d : Dict κ α) : d.keys.Nodup := d.nodup

@[simp]
theorem keys_empty : (empty : Dict κ α).keys = [] := rfl

@[simp]
theorem keys_mapVal (f : κ → α → β) (d : Dict κ α) : (d.mapVal f).keys = d.keys := by
  simp only [keys, mapVal, List.map_map, Function.comp_def]

/-- Two pairs of one dictionary with the same key are the same pair. -/
theorem value_unique (d : Dict κ α) {k : κ} {v w : α} (hv : (k, v) ∈ d.entries)
    (hw : (k, w) ∈ d.entries) : v = w := by
  have heq : (k, v) = (k, w) := List.inj_on_of_nodup_map d.nodup hv hw rfl
  exact congrArg Prod.snd heq

/-- Two rewrites that agree on the stored pairs. -/
theorem mapVal_congr {f g : κ → α → β} {d : Dict κ α}
    (h : ∀ k v, (k, v) ∈ d.entries → f k v = g k v) : d.mapVal f = d.mapVal g := by
  refine entries_injective (List.map_congr_left fun e he => ?_)
  rw [h e.1 e.2 he]

/-- Two tests that agree on the stored pairs. -/
theorem filter_congr {p q : κ → α → Bool} {d : Dict κ α}
    (h : ∀ k v, (k, v) ∈ d.entries → p k v = q k v) : d.filter p = d.filter q :=
  entries_injective (List.filter_congr fun e he => h e.1 e.2 he)

theorem mapVal_id {f : κ → α → α} {d : Dict κ α} (h : ∀ k v, (k, v) ∈ d.entries → f k v = v) :
    d.mapVal f = d := by
  refine entries_injective ((List.map_congr_left fun e he => ?_).trans (List.map_id _))
  rw [h e.1 e.2 he, id]

theorem filter_id {p : κ → α → Bool} {d : Dict κ α} (h : ∀ k v, (k, v) ∈ d.entries → p k v = true) :
    d.filter p = d :=
  entries_injective (List.filter_eq_self.mpr fun e he => h e.1 e.2 he)

variable [DecidableEq κ]

instance [DecidableEq α] : DecidableEq (Dict κ α) := fun d e =>
  decidable_of_iff (d.entries = e.entries) ⟨entries_injective, congrArg entries⟩

/-- The value stored under a key, if there is one. -/
def get? (d : Dict κ α) (k : κ) : Option α :=
  (d.entries.find? fun e => e.1 = k).map Prod.snd

/-- Whether a key is present. -/
def contains (d : Dict κ α) (k : κ) : Bool := (d.get? k).isSome

/-- The value stored under a key, or a default. -/
def getD (d : Dict κ α) (k : κ) (dflt : α) : α := (d.get? k).getD dflt

/-- Drop a key; dropping an absent key changes nothing. -/
def erase (d : Dict κ α) (k : κ) : Dict κ α := d.filterKeys fun j => j ≠ k

/-- Store a value under a key: in place if the key is there, at the end
    otherwise. -/
def set (d : Dict κ α) (k : κ) (v : α) : Dict κ α :=
  if h : k ∈ d.keys then
    d.mapVal fun j w => if j = k then v else w
  -- A new key stays unique at the end, for it was not among the keys.
  else
    ⟨d.entries ++ [(k, v)], by
      rw [List.map_append, List.nodup_append]
      refine ⟨d.nodup, List.nodup_singleton k, ?_⟩
      intro a ha b hb
      rw [List.map_cons, List.map_nil, List.mem_singleton] at hb
      intro hab
      rw [hab, hb] at ha
      exact h ha⟩

/-- Store a list of pairs one after the other. -/
def ofList (es : List (κ × α)) : Dict κ α := es.foldl (fun d e => d.set e.1 e.2) empty

theorem get?_eq_some_iff (d : Dict κ α) (k : κ) (v : α) :
    d.get? k = some v ↔ (k, v) ∈ d.entries := by
  constructor
  · intro h
    rcases Option.map_eq_some_iff.mp h with ⟨⟨j, w⟩, hfind, hw⟩
    have hj : j = k := by simpa using List.find?_some hfind
    have hmem := List.mem_of_find?_eq_some hfind
    simp only at hw
    rw [hj, hw] at hmem
    exact hmem
  · intro hmem
    cases hfind : d.entries.find? fun e => e.1 = k with
    | none =>
        have hno := List.find?_eq_none.mp hfind (k, v) hmem
        simp only [decide_true, not_true_eq_false] at hno
    | some e =>
        have hk : e.1 = k := by simpa using List.find?_some hfind
        have he : (k, e.2) ∈ d.entries := hk ▸ List.mem_of_find?_eq_some hfind
        simp only [get?, hfind, Option.map_some, value_unique d he hmem]

theorem mem_keys_iff (d : Dict κ α) (k : κ) : k ∈ d.keys ↔ ∃ v, d.get? k = some v := by
  simp only [keys, List.mem_map, get?_eq_some_iff]
  constructor
  · rintro ⟨⟨j, v⟩, hmem, rfl⟩
    exact ⟨v, hmem⟩
  · rintro ⟨v, hmem⟩
    exact ⟨(k, v), hmem, rfl⟩

theorem isSome_get?_iff (d : Dict κ α) (k : κ) : (d.get? k).isSome ↔ k ∈ d.keys := by
  rw [mem_keys_iff, Option.isSome_iff_exists]

theorem not_mem_keys_iff (d : Dict κ α) (k : κ) : k ∉ d.keys ↔ d.get? k = none := by
  rw [mem_keys_iff, Option.eq_none_iff_forall_not_mem]
  simp only [Option.mem_def, not_exists]

theorem contains_iff (d : Dict κ α) (k : κ) : d.contains k = true ↔ k ∈ d.keys := by
  rw [contains, mem_keys_iff, Option.isSome_iff_exists]

@[simp]
theorem get?_empty (k : κ) : (empty : Dict κ α).get? k = none := rfl

theorem get?_mapVal (f : κ → α → β) (d : Dict κ α) (k : κ) :
    (d.mapVal f).get? k = (d.get? k).map (f k) := by
  ext v
  rw [get?_eq_some_iff]
  simp only [mapVal, List.mem_map, Option.map_eq_some_iff, get?_eq_some_iff, Prod.mk.injEq]
  constructor
  · rintro ⟨⟨j, w⟩, hmem, rfl, rfl⟩
    exact ⟨w, hmem, rfl⟩
  · rintro ⟨w, hmem, rfl⟩
    exact ⟨(k, w), hmem, rfl, rfl⟩

theorem get?_filter_eq_some_iff (p : κ → α → Bool) (d : Dict κ α) (k : κ) (v : α) :
    (d.filter p).get? k = some v ↔ d.get? k = some v ∧ p k v = true := by
  rw [get?_eq_some_iff, get?_eq_some_iff]
  simp only [filter, List.mem_filter]

theorem get?_filterKeys (p : κ → Bool) (d : Dict κ α) (k : κ) :
    (d.filterKeys p).get? k = if p k then d.get? k else none := by
  ext v
  rw [filterKeys, get?_filter_eq_some_iff]
  by_cases hp : p k = true
  · simp [hp]
  · simp [hp]

theorem get?_erase (d : Dict κ α) (k j : κ) :
    (d.erase k).get? j = if j = k then none else d.get? j := by
  rw [erase, get?_filterKeys]
  by_cases h : j = k
  · simp [h]
  · simp [h]

theorem get?_set (d : Dict κ α) (k j : κ) (v : α) :
    (d.set k v).get? j = if j = k then some v else d.get? j := by
  by_cases hk : k ∈ d.keys
  · rw [set, dif_pos hk, get?_mapVal]
    by_cases hj : j = k
    · rcases (mem_keys_iff d k).mp hk with ⟨w, hw⟩
      simp [hj, hw]
    · simp only [if_neg hj, Option.map_id']
  · rw [set, dif_neg hk]
    ext w
    rw [get?_eq_some_iff]
    simp only [List.mem_append, List.mem_singleton, Prod.mk.injEq]
    by_cases hj : j = k
    · rw [if_pos hj, Option.some.injEq]
      constructor
      · rintro (hmem | ⟨-, rfl⟩)
        · exact absurd (hj ▸ List.mem_map_of_mem (f := Prod.fst) hmem) hk
        · rfl
      · rintro rfl
        exact Or.inr ⟨hj, rfl⟩
    · rw [if_neg hj, get?_eq_some_iff]
      exact ⟨fun h => h.resolve_right fun hc => hj hc.1, Or.inl⟩

@[simp]
theorem get?_set_self (d : Dict κ α) (k : κ) (v : α) : (d.set k v).get? k = some v := by
  rw [get?_set, if_pos rfl]

@[simp]
theorem get?_set_ne (d : Dict κ α) {k j : κ} (v : α) (h : j ≠ k) :
    (d.set k v).get? j = d.get? j := by
  rw [get?_set, if_neg h]

@[simp]
theorem get?_erase_self (d : Dict κ α) (k : κ) : (d.erase k).get? k = none := by
  rw [get?_erase, if_pos rfl]

@[simp]
theorem get?_erase_ne (d : Dict κ α) {k j : κ} (h : j ≠ k) :
    (d.erase k).get? j = d.get? j := by
  rw [get?_erase, if_neg h]

theorem mem_keys_set (d : Dict κ α) (k j : κ) (v : α) :
    j ∈ (d.set k v).keys ↔ j = k ∨ j ∈ d.keys := by
  rw [mem_keys_iff, mem_keys_iff, get?_set]
  by_cases h : j = k
  · rw [if_pos h]
    exact ⟨fun _ => Or.inl h, fun _ => ⟨v, rfl⟩⟩
  · rw [if_neg h, or_iff_right h]

/-- Erasing a key that is not there changes nothing. -/
theorem erase_of_none {d : Dict κ α} {k : κ} (h : d.get? k = none) : d.erase k = d := by
  rw [erase, filterKeys]
  refine filter_id fun j v hj => ?_
  have hne : j ≠ k := by
    rintro rfl
    rw [(get?_eq_some_iff _ _ _).mpr hj] at h
    cases h
  exact decide_eq_true hne

/-- A key that is not among the pairs stored afterwards keeps its value. -/
theorem get?_foldl_set_of_not_mem (es : List (κ × α)) (k : κ) :
    ∀ d : Dict κ α, k ∉ es.map Prod.fst →
      (es.foldl (fun d e => d.set e.1 e.2) d).get? k = d.get? k := by
  induction es with
  | nil => intro d _; rfl
  | cons e es ih =>
      intro d hk
      rw [List.map_cons, List.mem_cons, not_or] at hk
      rw [List.foldl_cons, ih _ hk.2, get?_set_ne _ _ hk.1]

/-- A pair whose key is not stored again afterwards is found. -/
theorem get?_foldl_set_of_mem (es : List (κ × α)) (k : κ) (v : α)
    (hnd : (es.map Prod.fst).Nodup) :
    ∀ d : Dict κ α, (k, v) ∈ es →
      (es.foldl (fun d e => d.set e.1 e.2) d).get? k = some v := by
  induction es with
  | nil => intro d h; exact absurd h List.not_mem_nil
  | cons e es ih =>
      intro d hmem
      rw [List.map_cons, List.nodup_cons] at hnd
      rw [List.foldl_cons]
      rcases List.mem_cons.mp hmem with rfl | hmem
      · rw [get?_foldl_set_of_not_mem _ _ _ hnd.1, get?_set_self]
      · exact ih hnd.2 _ hmem

/-- What is found after storing a list is a pair of the list, or was there before. -/
theorem mem_of_get?_foldl_set (es : List (κ × α)) {k : κ} {v : α} : ∀ d : Dict κ α,
    (es.foldl (fun d e => d.set e.1 e.2) d).get? k = some v → (k, v) ∈ es ∨ d.get? k = some v := by
  induction es with
  | nil => exact fun d h => Or.inr h
  | cons e es ih =>
      intro d h
      rcases ih _ h with hmem | h
      · exact Or.inl (List.mem_cons_of_mem e hmem)
      · rw [get?_set] at h
        split_ifs at h with hk
        · cases h
          rw [hk]
          exact Or.inl List.mem_cons_self
        · exact Or.inr h

theorem mem_of_get?_ofList {es : List (κ × α)} {k : κ} {v : α} (h : (ofList es).get? k = some v) :
    (k, v) ∈ es := by
  rcases mem_of_get?_foldl_set es empty h with hmem | h
  · exact hmem
  · cases h

theorem get?_ofList_of_nodup (es : List (κ × α)) (hnd : (es.map Prod.fst).Nodup) (k : κ)
    (v : α) : (ofList es).get? k = some v ↔ (k, v) ∈ es := by
  constructor
  · intro h
    by_cases hk : k ∈ es.map Prod.fst
    · rcases List.mem_map.mp hk with ⟨⟨j, w⟩, hmem, rfl⟩
      have hw := get?_foldl_set_of_mem es j w hnd empty hmem
      rw [ofList, hw, Option.some.injEq] at h
      rw [← h]
      exact hmem
    · rw [ofList, get?_foldl_set_of_not_mem es k empty hk, get?_empty] at h
      simp only [reduceCtorEq] at h
  · exact get?_foldl_set_of_mem es k v hnd empty

/-- Storing pairs adds their keys. -/
theorem mem_keys_foldl_set (es : List (κ × α)) (k : κ) : ∀ d : Dict κ α,
    k ∈ (es.foldl (fun d e => d.set e.1 e.2) d).keys ↔ k ∈ d.keys ∨ k ∈ es.map Prod.fst := by
  induction es with
  | nil => exact fun d => by simp
  | cons e es ih =>
      intro d
      rw [List.foldl_cons, ih, mem_keys_set, List.map_cons, List.mem_cons]
      tauto

theorem mem_keys_ofList (es : List (κ × α)) (k : κ) :
    k ∈ (ofList es).keys ↔ k ∈ es.map Prod.fst := by
  rw [ofList, mem_keys_foldl_set, keys_empty]
  simp

/-- A dictionary that gives every listed key the same value. -/
theorem get?_ofList_const (ks : List κ) (v : α) (k : κ) :
    (ofList (ks.map fun j => (j, v))).get? k = if k ∈ ks then some v else none := by
  have hfold : ∀ d : Dict κ α,
      ((ks.map fun j => (j, v)).foldl (fun d e => d.set e.1 e.2) d).get? k =
        if k ∈ ks then some v else d.get? k := by
    induction ks with
    | nil => intro d; simp
    | cons j ks ih =>
        intro d
        rw [List.map_cons, List.foldl_cons, ih, get?_set]
        by_cases hk : k ∈ ks
        · simp [hk]
        · simp [hk]
  rw [ofList, hfold, get?_empty]

/-- Storing twice under one key is storing the second value. -/
theorem set_set (d : Dict κ α) (k : κ) (v w : α) : (d.set k v).set k w = d.set k w := by
  have hmem : k ∈ (d.set k v).keys := (mem_keys_set d k k v).mpr (Or.inl rfl)
  refine entries_injective ?_
  rw [set, dif_pos hmem]
  by_cases hk : k ∈ d.keys
  · simp only [set, dif_pos hk, mapVal, List.map_map]
    refine List.map_congr_left fun e _ => ?_
    by_cases he : e.1 = k <;> simp [he]
  · simp only [set, dif_neg hk, mapVal, List.map_append, List.map_cons, List.map_nil, if_true]
    congr 1
    -- The other keys are not the one that is stored.
    refine (List.map_congr_left fun e he => ?_).trans (List.map_id _)
    have hne : e.1 ≠ k := fun h => hk (h ▸ List.mem_map_of_mem he)
    rw [if_neg hne, id]

theorem mapVal_set (f : κ → α → β) (d : Dict κ α) (k : κ) (v : α) :
    (d.set k v).mapVal f = (d.mapVal f).set k (f k v) := by
  refine entries_injective ?_
  by_cases hk : k ∈ d.keys
  · have hk' : k ∈ (d.mapVal f).keys := by
      rw [keys_mapVal]
      exact hk
    rw [set, dif_pos hk, set, dif_pos hk']
    simp only [mapVal, List.map_map]
    refine List.map_congr_left fun e _ => ?_
    by_cases he : e.1 = k <;> simp [he]
  · have hk' : k ∉ (d.mapVal f).keys := by
      rw [keys_mapVal]
      exact hk
    rw [set, dif_neg hk, set, dif_neg hk']
    simp only [mapVal, List.map_append, List.map_cons, List.map_nil]

theorem mapVal_erase (f : κ → α → β) (d : Dict κ α) (k : κ) :
    (d.erase k).mapVal f = (d.mapVal f).erase k := by
  refine entries_injective ?_
  simp only [erase, filterKeys, filter, mapVal, List.filter_map]
  rfl

/-- Storing under a key that is there leaves the keys where they are. -/
theorem keys_set_of_mem {d : Dict κ α} {k : κ} (h : k ∈ d.keys) (v : α) :
    (d.set k v).keys = d.keys := by
  rw [set, dif_pos h, keys_mapVal]

/-- The keys of a list of pairs with distinct ones are theirs, in order. -/
theorem keys_ofList {es : List (κ × α)} (hnd : (es.map Prod.fst).Nodup) :
    (ofList es).keys = es.map Prod.fst := by
  have hfold : ∀ d : Dict κ α, (∀ k ∈ es.map Prod.fst, k ∉ d.keys) →
      (es.foldl (fun d e => d.set e.1 e.2) d).keys = d.keys ++ es.map Prod.fst := by
    induction es with
    | nil => exact fun d _ => (List.append_nil _).symm
    | cons e es ih =>
        intro d hnew
        rw [List.map_cons, List.nodup_cons] at hnd
        have he : e.1 ∉ d.keys := hnew e.1 List.mem_cons_self
        have hkeys : (d.set e.1 e.2).keys = d.keys ++ [e.1] := by
          rw [set, dif_neg he, keys, List.map_append]
          rfl
        rw [List.foldl_cons, ih hnd.2 _ ?_, hkeys, List.append_assoc]
        · rfl
        · intro k hk hmem
          rw [hkeys, List.mem_append, List.mem_singleton] at hmem
          rcases hmem with hmem | rfl
          · exact hnew k (List.mem_cons_of_mem _ hk) hmem
          · exact hnd.1 hk
  rw [ofList, hfold empty fun k _ => List.not_mem_nil, keys_empty, List.nil_append]

/-- Two dictionaries with the same keys in the same order and the same values
    are the same. -/
theorem ext_of_keys {d e : Dict κ α} (hkeys : d.keys = e.keys)
    (hget : ∀ k ∈ d.keys, d.get? k = e.get? k) : d = e := by
  refine entries_injective (List.ext_getElem ?_ fun i hd he => ?_)
  · have hlen := congrArg List.length hkeys
    rwa [keys, keys, List.length_map, List.length_map] at hlen
  · have hfst : d.entries[i].1 = e.entries[i].1 := by
      have hget := List.getElem_of_eq hkeys (by rw [keys, List.length_map]; exact hd)
      simpa only [keys, List.getElem_map] using hget
    have hpair : d.get? d.entries[i].1 = some d.entries[i].2 :=
      (get?_eq_some_iff _ _ _).mpr (List.getElem_mem hd)
    rw [hget _ (List.mem_map_of_mem (List.getElem_mem hd)), get?_eq_some_iff, hfst] at hpair
    exact Prod.ext hfst (value_unique e hpair (List.getElem_mem he))

end Dict

end DataCrystal
