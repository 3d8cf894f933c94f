import DataCrystal.Lib.Dict
import Mathlib.Data.List.Forall2
import Mathlib.Data.List.Sort

/-!
# Newest Wins

A table kept as a list of parts, oldest first. Each part writes some keys, and a
key has the value the newest part that writes it gave it. A part may write a
tombstone, which says that the key has no value.

`foldNewest` is the algorithm: it goes through the parts from the newest to the
oldest and drops what a newer part wrote. `newest` is what it is for, a lookup
that never builds the table, and `mem_foldNewest` says that they agree. The
algorithm looks at keys only, so it commutes with any rewriting of the values.

Compaction replaces the parts by the one table they stand for, without its
tombstones, and changes no lookup.

## Main definitions

* `foldNewest`: The rows that no newer part replaces.
* `newest`: The value of a key.
* `live`: The value of a key, a tombstone being none.
* `sortedByKey`: The entries of a dictionary by ascending key.

## Theorems

* `mem_foldNewest`: The fold and the lookup agree.
* `foldNewest_map`: Folding commutes with rewriting the rows.
* `foldNewest_rel`: Parts that agree fold alike.
* `sortedByKey_eq`: Rows are determined by their lookup.
* `live_again`, `live_compacted`: What changes no lookup.
* `live_mapVal`: Rewriting the values.
-/

namespace DataCrystal

variable {α β γ : Type}

/-- The rows of parts that no newer part replaces, and the keys written so far. -/
def foldNewestFrom (key : α → Nat) (parts : List (List α)) : List Nat × List α :=
  parts.foldr (fun part seen =>
    (part.map key ++ seen.1, part.filter (fun a => key a ∉ seen.1) ++ seen.2)) ([], [])

/-- The rows of parts that no newer part replaces. -/
def foldNewest (key : α → Nat) (parts : List (List α)) : List α := (foldNewestFrom key parts).2

/-- What the newest part that writes a key wrote. -/
def newest : List (Dict Nat β) → Nat → Option β
  | [], _ => none
  | part :: parts, k => (newest parts k).or (part.get? k)

/-- The value of a key. -/
def live (parts : List (Dict Nat (Option β))) (k : Nat) : Option β := (newest parts k).join

theorem foldNewestFrom_seen (key : α → Nat) (parts : List (List α)) :
    (foldNewestFrom key parts).1 = parts.flatten.map key := by
  induction parts with
  | nil => rfl
  | cons part parts ih =>
      unfold foldNewestFrom at ih ⊢
      rw [List.foldr_cons, ih, List.flatten_cons, List.map_append]

theorem foldNewest_cons (key : α → Nat) (part : List α) (parts : List (List α)) :
    foldNewest key (part :: parts) =
      part.filter (fun a => key a ∉ parts.flatten.map key) ++ foldNewest key parts := by
  have hseen := foldNewestFrom_seen key parts
  unfold foldNewest foldNewestFrom at *
  rw [List.foldr_cons, hseen]

/-- Folding commutes with rewriting the rows, if it keeps their keys. -/
theorem foldNewest_map {key : α → Nat} {key' : γ → Nat} (f : α → γ)
    (hkey : ∀ a, key' (f a) = key a) (parts : List (List α)) :
    foldNewest key' (parts.map (List.map f)) = (foldNewest key parts).map f := by
  induction parts with
  | nil => rfl
  | cons part parts ih =>
      have hkeys : (parts.map (List.map f)).flatten.map key' = parts.flatten.map key := by
        rw [← List.map_flatten, List.map_map]
        exact List.map_congr_left fun a _ => hkey a
      rw [List.map_cons, foldNewest_cons, foldNewest_cons, ih, hkeys, List.filter_map,
        List.map_append]
      have htest : (fun a => decide (key' a ∉ parts.flatten.map key)) ∘ f =
          fun a => decide (key a ∉ parts.flatten.map key) := by
        funext a
        change decide (key' (f a) ∉ _) = _
        rw [hkey]
      rw [htest]

theorem map_key_eq {R : α → γ → Prop} {key : α → Nat} {key' : γ → Nat}
    (hkey : ∀ a c, R a c → key a = key' c) {as : List α} {cs : List γ}
    (h : List.Forall₂ R as cs) : as.map key = cs.map key' := by
  induction h with
  | nil => rfl
  | cons hone _ ih => rw [List.map_cons, List.map_cons, hkey _ _ hone, ih]

/-- Parts that agree row by row fold to rows that agree. -/
theorem foldNewest_rel {R : α → γ → Prop} {key : α → Nat} {key' : γ → Nat}
    (hkey : ∀ a c, R a c → key a = key' c) {parts : List (List α)} {parts' : List (List γ)}
    (h : List.Forall₂ (List.Forall₂ R) parts parts') :
    List.Forall₂ R (foldNewest key parts) (foldNewest key' parts') := by
  induction h with
  | nil => exact .nil
  | cons hone hrest ih =>
      rw [foldNewest_cons, foldNewest_cons, map_key_eq hkey (List.rel_flatten hrest)]
      refine List.rel_append (List.rel_filter ?_ hone) ih
      intro a c hac
      dsimp only
      rw [hkey a c hac]

/-- A key that no part writes has no value, and the other way round. -/
theorem newest_eq_none (parts : List (Dict Nat β)) (k : Nat) :
    newest parts k = none ↔ k ∉ (parts.map Dict.entries).flatten.map Prod.fst := by
  induction parts with
  | nil => exact ⟨fun _ h => absurd h List.not_mem_nil, fun _ => rfl⟩
  | cons part parts ih =>
      rw [newest, Option.or_eq_none_iff, ih, List.map_cons, List.flatten_cons, List.map_append,
        List.mem_append, not_or, and_comm, ← Dict.not_mem_keys_iff]
      exact Iff.rfl

/-- The fold and the lookup agree. -/
theorem mem_foldNewest (parts : List (Dict Nat β)) (k : Nat) (b : β) :
    (k, b) ∈ foldNewest Prod.fst (parts.map Dict.entries) ↔ newest parts k = some b := by
  induction parts with
  | nil => exact ⟨fun h => absurd h List.not_mem_nil, fun h => nomatch h⟩
  | cons part parts ih =>
      rw [List.map_cons, foldNewest_cons, List.mem_append, ih, List.mem_filter, newest]
      cases hnew : newest parts k with
      | some b' =>
          -- A newer part has the key, so the older one is out.
          have hseen : k ∈ (parts.map Dict.entries).flatten.map Prod.fst := by
            by_contra hnot
            rw [(newest_eq_none parts k).mpr hnot] at hnew
            cases hnew
          rw [Option.some_or]
          constructor
          · rintro (⟨-, hold⟩ | h)
            · exact absurd hseen (of_decide_eq_true hold)
            · exact h
          · exact Or.inr
      | none =>
          have hseen := (newest_eq_none parts k).mp hnew
          rw [Option.none_or, Dict.get?_eq_some_iff]
          constructor
          · rintro (⟨h, -⟩ | h)
            · exact h
            · cases h
          · exact fun h => Or.inl ⟨h, decide_eq_true hseen⟩

/-- No key is left twice. -/
theorem foldNewest_nodup (parts : List (Dict Nat β)) :
    ((foldNewest Prod.fst (parts.map Dict.entries)).map Prod.fst).Nodup := by
  induction parts with
  | nil => exact List.nodup_nil
  | cons part parts ih =>
      rw [List.map_cons, foldNewest_cons, List.map_append, List.nodup_append]
      refine ⟨part.nodup.sublist (List.filter_sublist.map _), ih, ?_⟩
      intro k hk k' hk' heq
      rcases List.mem_map.mp hk with ⟨e, he, rfl⟩
      rcases List.mem_map.mp hk' with ⟨e', he', rfl⟩
      have hold := of_decide_eq_true (List.mem_filter.mp he).2
      have hnew := (mem_foldNewest parts e'.1 e'.2).mp he'
      apply hold
      by_contra hnot
      rw [heq] at hnot
      rw [(newest_eq_none parts e'.1).mpr hnot] at hnew
      cases hnew

theorem newest_append (parts parts' : List (Dict Nat β)) (k : Nat) :
    newest (parts ++ parts') k = (newest parts' k).or (newest parts k) := by
  induction parts with
  | nil =>
      rw [List.nil_append, newest, Option.or_none]
  | cons part parts ih => rw [List.cons_append, newest, ih, newest, Option.or_assoc]

theorem live_snoc (parts : List (Dict Nat (Option β))) (part : Dict Nat (Option β)) (k : Nat) :
    live (parts ++ [part]) k = match part.get? k with
      | some b => b
      | none => live parts k := by
  unfold live
  rw [newest_append, newest, newest, Option.none_or]
  cases part.get? k with
  | some b => rfl
  | none => rfl

/-- Writing a part again changes no lookup. -/
theorem live_again (parts : List (Dict Nat (Option β))) (part : Dict Nat (Option β)) (k : Nat) :
    live (parts ++ [part] ++ [part]) k = live (parts ++ [part]) k := by
  rw [live_snoc (parts ++ [part]), live_snoc]
  cases part.get? k <;> rfl

/-- Parts may be replaced by parts that look up the same. -/
theorem live_replace {parts parts' : List (Dict Nat (Option β))}
    (h : ∀ k, live parts k = live parts' k) (part : Dict Nat (Option β)) (k : Nat) :
    live (parts ++ [part]) k = live (parts' ++ [part]) k := by
  rw [live_snoc, live_snoc]
  cases part.get? k with
  | some b => rfl
  | none => exact h k

/-- Rewriting the values rewrites what is looked up. -/
theorem live_mapVal (f : β → γ) (parts : List (Dict Nat (Option β))) (k : Nat) :
    live (parts.map fun part => part.mapVal fun _ b => b.map f) k = (live parts k).map f := by
  have hnewest : newest (parts.map fun part => part.mapVal fun _ b => b.map f) k =
      (newest parts k).map (Option.map f) := by
    induction parts with
    | nil => rfl
    | cons part parts ih =>
        rw [List.map_cons, newest, newest, ih, Dict.get?_mapVal]
        cases newest parts k <;> cases part.get? k <;> rfl
  unfold live
  rw [hnewest]
  cases newest parts k <;> rfl

/-- The entries of rows by ascending key. -/
def sortByKey (rows : List (Nat × β)) : List (Nat × β) :=
  rows.insertionSort fun e e' => e.1 ≤ e'.1

theorem sortByKey_map {f : β → γ} (rows : List (Nat × β)) :
    (sortByKey rows).map (fun e => (e.1, f e.2)) =
      sortByKey (rows.map fun e => (e.1, f e.2)) := by
  unfold sortByKey
  exact List.map_insertionSort _ _ _ _ fun e _ e' _ => Iff.rfl

/-- Rows without a repeated key are determined by what they hold, once sorted. -/
theorem sortByKey_eq {rows rows' : List (Nat × β)} (hnd : (rows.map Prod.fst).Nodup)
    (hnd' : (rows'.map Prod.fst).Nodup) (h : ∀ e, e ∈ rows ↔ e ∈ rows') :
    sortByKey rows = sortByKey rows' := by
  have hperm : rows.Perm rows' :=
    (List.perm_ext_iff_of_nodup (List.Nodup.of_map _ hnd) (List.Nodup.of_map _ hnd')).mpr h
  have hsorted : (sortByKey rows).Perm (sortByKey rows') :=
    ((List.perm_insertionSort _ rows).trans hperm).trans (List.perm_insertionSort _ rows').symm
  refine hsorted.eq_of_pairwise ?_ (List.pairwise_insertionSort _ _)
    (List.pairwise_insertionSort _ _)
  intro e e' he he' hle hle'
  have hmem : e ∈ rows := (List.mem_insertionSort _).mp he
  have hmem' : e' ∈ rows := (h e').mpr ((List.mem_insertionSort _).mp he')
  exact List.inj_on_of_nodup_map hnd hmem hmem' (Nat.le_antisymm hle hle')

/-- A table that looks up what another one does, rewritten, has its rows, rewritten. -/
theorem sortByKey_rewritten {d : Dict Nat β} {e : Dict Nat γ} {f : β → γ}
    (h : ∀ k, (d.get? k).map f = e.get? k) :
    (sortByKey d.entries).map (fun x => (x.1, f x.2)) = sortByKey e.entries := by
  rw [sortByKey_map]
  refine sortByKey_eq ?_ e.nodup ?_
  · rw [List.map_map]
    exact d.nodup
  · rintro ⟨k, c⟩
    rw [← Dict.get?_eq_some_iff, ← h, Option.map_eq_some_iff, List.mem_map]
    constructor
    · rintro ⟨⟨k', b⟩, hmem, heq⟩
      cases heq
      exact ⟨b, (Dict.get?_eq_some_iff _ _ _).mpr hmem, rfl⟩
    · rintro ⟨b, hget, rfl⟩
      exact ⟨(k, b), (Dict.get?_eq_some_iff _ _ _).mp hget, rfl⟩

/-- The rows of a fold that are no tombstones. -/
def liveRows (rows : List (Nat × Option β)) : List (Nat × β) :=
  rows.filterMap fun e => e.2.map fun b => (e.1, b)

theorem mem_liveRows {rows : List (Nat × Option β)} {k : Nat} {b : β} :
    (k, b) ∈ liveRows rows ↔ (k, some b) ∈ rows := by
  unfold liveRows
  rw [List.mem_filterMap]
  constructor
  · rintro ⟨⟨k', b'⟩, hmem, hsome⟩
    rcases Option.map_eq_some_iff.mp hsome with ⟨b'', hb, heq⟩
    cases heq
    change b' = some b at hb
    rw [hb] at hmem
    exact hmem
  · exact fun h => ⟨(k, some b), h, rfl⟩

theorem liveRows_nodup {rows : List (Nat × Option β)} (h : (rows.map Prod.fst).Nodup) :
    ((liveRows rows).map Prod.fst).Nodup := by
  induction rows with
  | nil => exact List.nodup_nil
  | cons e rows ih =>
      rw [List.map_cons, List.nodup_cons] at h
      unfold liveRows at ih ⊢
      cases hb : e.2 with
      | none =>
          rw [List.filterMap_cons_none (by rw [hb]; rfl)]
          exact ih h.2
      | some b =>
          rw [List.filterMap_cons_some (by rw [hb]; rfl), List.map_cons, List.nodup_cons]
          refine ⟨fun hmem => h.1 ?_, ih h.2⟩
          rcases List.mem_map.mp hmem with ⟨⟨k, b'⟩, he, hk⟩
          have hrow := mem_liveRows.mp he
          change k = e.1 at hk
          rw [← hk]
          exact List.mem_map_of_mem hrow

/-- The live rows of parts are what the lookup finds. -/
theorem mem_liveRows_foldNewest (parts : List (Dict Nat (Option β))) (k : Nat) (b : β) :
    (k, b) ∈ liveRows (foldNewest Prod.fst (parts.map Dict.entries)) ↔ live parts k = some b := by
  rw [mem_liveRows, mem_foldNewest]
  unfold live
  cases newest parts k <;> simp

/-- A table that looks up what its parts do, rewritten, has their live rows, rewritten. -/
theorem sorted_liveRows_map {parts : List (Dict Nat (Option β))} {table : Dict Nat γ} {f : β → γ}
    (h : ∀ k, (live parts k).map f = table.get? k) :
    (sortByKey (liveRows (foldNewest Prod.fst (parts.map Dict.entries)))).map
      (fun e => (e.1, f e.2)) = sortByKey table.entries := by
  let d : Dict Nat β := ⟨liveRows (foldNewest Prod.fst (parts.map Dict.entries)),
    liveRows_nodup (foldNewest_nodup parts)⟩
  have hlive : ∀ k, d.get? k = live parts k := by
    refine fun k => Option.ext fun b => ?_
    rw [Dict.get?_eq_some_iff, mem_liveRows_foldNewest]
  exact sortByKey_rewritten (d := d) (e := table) fun k => by rw [hlive, h]

/-- A table that looks up like its parts has their live rows. -/
theorem sorted_liveRows {parts : List (Dict Nat (Option β))} {table : Dict Nat β}
    (h : ∀ k, live parts k = table.get? k) :
    sortByKey (liveRows (foldNewest Prod.fst (parts.map Dict.entries))) =
      sortByKey table.entries := by
  rw [← sorted_liveRows_map (f := id) fun k => by rw [Option.map_id, id, h]]
  exact (List.map_id _).symm

/-- The one part that compaction leaves. -/
def compacted (parts : List (Dict Nat (Option β))) : Dict Nat (Option β) where
  entries := (sortByKey (liveRows (foldNewest Prod.fst (parts.map Dict.entries)))).map
    fun e => (e.1, some e.2)
  nodup := by
    rw [List.map_map]
    change ((sortByKey _).map Prod.fst).Nodup
    exact ((List.perm_insertionSort _ _).map Prod.fst).nodup_iff.mpr
      (liveRows_nodup (foldNewest_nodup parts))

/-- Compaction changes no lookup. -/
theorem live_compacted (parts : List (Dict Nat (Option β))) (k : Nat) :
    live [compacted parts] k = live parts k := by
  have hmem : ∀ b, (k, some b) ∈ (compacted parts).entries ↔ live parts k = some b := by
    intro b
    rw [← mem_liveRows_foldNewest]
    unfold compacted sortByKey
    constructor
    · intro h
      rcases List.mem_map.mp h with ⟨⟨k', b'⟩, he, heq⟩
      cases heq
      exact (List.mem_insertionSort _).mp he
    · intro h
      exact List.mem_map.mpr ⟨(k, b), (List.mem_insertionSort _).mpr h, rfl⟩
  have hlive : live [compacted parts] k = ((compacted parts).get? k).join := by
    unfold live
    rw [newest, newest, Option.none_or]
  rw [hlive]
  cases hget : (compacted parts).get? k with
  | none =>
      -- Nothing is found, so nothing was live.
      cases hl : live parts k with
      | none => rfl
      | some b =>
          have hfound := (Dict.get?_eq_some_iff _ _ _).mpr ((hmem b).mpr hl)
          rw [hget] at hfound
          cases hfound
  | some row =>
      have hin := (Dict.get?_eq_some_iff _ _ _).mp hget
      cases row with
      | some b => exact ((hmem b).mp hin).symm
      | none =>
          exfalso
          unfold compacted at hin
          rcases List.mem_map.mp hin with ⟨e, -, heq⟩
          cases heq

end DataCrystal
