import DataCrystal.Lib.Bisect

/-!
# Reading in an Order, a Page at a Time

Elements are listed by a key in either direction, those without a key last,
and within a key in the order they came. `Precedes` is that order and
`Arranged` says of a list that it follows it. Such a list is determined by its
elements, so two ways of producing one produce the same.

There are two ways. A stable sort compares the elements. Descending is not the
ascending sort turned round, since ties must not turn with it: the list is
turned before the sort and turned back after. The other way goes through the
keys in order and appends the group of each. Only the second can stop early,
once the groups collected so far fill the page.

## Main definitions

* `Precedes`: By key in a direction, the keyless last, ties as they came.
* `Arranged`: A list follows this order.
* `stableSort`: A stable sort in either direction.
* `collect`: Appending groups until there are enough elements.

## Theorems

* `arranged_ext`: An arranged list is determined by its elements.
* `stableSort_spec`: A stable sort arranges a list.
* `groups_arranged`: The groups of ascending keys are arranged.
* `collect_spec`: What stops early agrees with what does not, up to the stop.
-/

namespace DataCrystal

variable {α κ ε : Type}

/-- The comparison of keys in the asked direction. -/
def directed (lt : κ → κ → Except ε Bool) (desc : Bool) (k j : κ) : Except ε Bool :=
  if desc then lt j k else lt k j

/-- An element comes before another: by key in the asked direction, the
    keyless last, and by `R` where the keys do not tell them apart. -/
def Precedes (lt : κ → κ → Except ε Bool) (desc : Bool) (key : α → Option κ) (R : α → α → Prop)
    (a b : α) : Prop :=
  match key a, key b with
  | some k, some j => directed lt desc k j = .ok true ∨ (k = j ∧ R a b)
  | some _, none => True
  | none, some _ => False
  | none, none => R a b

/-- A list follows the order. -/
def Arranged (lt : κ → κ → Except ε Bool) (desc : Bool) (key : α → Option κ) (R : α → α → Prop)
    (xs : List α) : Prop :=
  xs.Pairwise (Precedes lt desc key R)

/-- A stable sort. In the descending direction the list is turned round before
    and after, which keeps the ties as they came. -/
def stableSort (cmp : α → α → Except ε Bool) (desc : Bool) (xs : List α) :
    Except ε (List α) :=
  if desc then (sortedRun cmp xs.reverse).map List.reverse else sortedRun cmp xs

/-- Append the groups of the keys until there are `stop` elements; whether
    there are is returned as well. -/
def collect (group : κ → List α) (stop : Nat) (out : List α) : List κ → List α × Bool
  | [] => (out, false)
  | k :: ks =>
    if stop ≤ (out ++ group k).length then (out ++ group k, true)
    else collect group stop (out ++ group k) ks

section Order

variable {lt : κ → κ → Except ε Bool} {desc : Bool} {key : α → Option κ} {R : α → α → Prop}
  {S : κ → Prop} {a b : α} {k j : κ}

theorem precedes_some (ha : key a = some k) (hb : key b = some j) :
    Precedes lt desc key R a b ↔ directed lt desc k j = .ok true ∨ (k = j ∧ R a b) := by
  simp only [Precedes, ha, hb]

theorem precedes_none (ha : key a = none) (hb : key b = none) :
    Precedes lt desc key R a b ↔ R a b := by
  simp only [Precedes, ha, hb]

theorem precedes_last (ha : key a = some k) (hb : key b = none) :
    Precedes lt desc key R a b := by
  simp only [Precedes, ha, hb]

theorem not_precedes_first (ha : key a = none) (hb : key b = some j) :
    ¬Precedes lt desc key R a b := by
  simp only [Precedes, ha, hb, not_false_eq_true]

/-- The direction only turns the comparison round. -/
theorem OrderedOn.directed (h : OrderedOn lt S) (desc : Bool) :
    OrderedOn (directed lt desc) S := by
  cases desc with
  | false => exact h
  | true =>
      exact ⟨fun k j hk hj => h.answers j k hj hk, h.irrefl,
        fun k j l hk hj hl hkj hjl => h.trans l j k hl hj hk hjl hkj,
        fun k j hk hj hkj hjk => h.tri k j hk hj hjk hkj⟩

/-- Nothing comes both before and after an element. -/
theorem precedes_asymm (hord : OrderedOn lt S) (hR : ∀ a b, R a b → ¬R b a)
    (ha : ∀ k, key a = some k → S k) (hb : ∀ k, key b = some k → S k)
    (hab : Precedes lt desc key R a b) : ¬Precedes lt desc key R b a := by
  cases hka : key a with
  | none =>
      cases hkb : key b with
      | none =>
          rw [precedes_none hka hkb] at hab
          rw [precedes_none hkb hka]
          exact hR a b hab
      | some j => exact absurd hab (not_precedes_first hka hkb)
  | some k =>
      cases hkb : key b with
      | none => exact not_precedes_first hkb hka
      | some j =>
          have hd := hord.directed desc
          rw [precedes_some hka hkb] at hab
          rw [precedes_some hkb hka]
          rcases hab with hkj | ⟨rfl, hab⟩
          · have hne := hd.ne_of_lt (ha k hka) hkj
            rw [hd.asymm (ha k hka) (hb j hkb) hkj]
            simp [hne.symm]
          · rw [hd.irrefl k (ha k hka)]
            simpa using hR a b hab

/-- An arranged list has no element twice. -/
theorem arranged_nodup (hord : OrderedOn lt S) (hR : ∀ a b, R a b → ¬R b a) {xs : List α}
    (hS : ∀ a ∈ xs, ∀ k, key a = some k → S k) (hxs : Arranged lt desc key R xs) : xs.Nodup := by
  refine List.Pairwise.imp_of_mem ?_ hxs
  rintro a b ha - hab rfl
  exact precedes_asymm hord hR (hS a ha) (hS a ha) hab hab

/-- Two arranged lists with the same elements are the same list. -/
theorem arranged_ext (hord : OrderedOn lt S) (hR : ∀ a b, R a b → ¬R b a) {xs ys : List α}
    (hS : ∀ a ∈ xs, ∀ k, key a = some k → S k) (hxs : Arranged lt desc key R xs)
    (hys : Arranged lt desc key R ys) (hmem : ∀ a, a ∈ xs ↔ a ∈ ys) : xs = ys := by
  have hperm : xs.Perm ys := (List.perm_ext_iff_of_nodup (arranged_nodup hord hR hS hxs)
    (arranged_nodup hord hR (fun a ha => hS a ((hmem a).mpr ha)) hys)).mpr hmem
  refine hperm.eq_of_pairwise ?_ hxs hys
  intro a b ha hb hab hba
  exact absurd hba (precedes_asymm hord hR (hS a ha) (hS b ((hmem b).mpr hb)) hab)

end Order

section Sorting

variable {lt : κ → κ → Except ε Bool} {cmp : α → α → Except ε Bool} {key : α → Option κ}
  {R : α → α → Prop} {S : κ → Prop}

/-- The elements have keys, and comparing them is comparing their keys. A stable
    sort of the elements is then one of the keys. -/
structure Keyed (lt : κ → κ → Except ε Bool) (cmp : α → α → Except ε Bool) (key : α → Option κ)
    (S : κ → Prop) (xs : List α) : Prop where
  keys : ∀ a ∈ xs, ∃ k, key a = some k ∧ S k
  compares : ∀ a ∈ xs, ∀ b ∈ xs, ∀ k j, key a = some k → key b = some j → cmp a b = lt k j

theorem Keyed.mono {xs ys : List α} (h : Keyed lt cmp key S xs) (hys : ∀ a ∈ ys, a ∈ xs) :
    Keyed lt cmp key S ys :=
  ⟨fun a ha => h.keys a (hys a ha), fun a ha b hb => h.compares a (hys a ha) b (hys b hb)⟩

/-- Inserting an element that came after all the others keeps a list arranged. -/
theorem insort_stable (hord : OrderedOn lt S) {x : α} {xs : List α}
    (hk : Keyed lt cmp key S (x :: xs)) (harr : Arranged lt false key R xs)
    (hR : ∀ a ∈ xs, R a x) :
    ∃ ys, insort cmp xs x = .ok ys ∧ Arranged lt false key R ys ∧ ys.Perm (x :: xs) := by
  rcases hk.keys x List.mem_cons_self with ⟨k, hx, hSk⟩
  have hcmp : ∀ a ∈ xs, ∀ j, key a = some j → cmp x a = lt k j := fun a ha j hj =>
    hk.compares x List.mem_cons_self a (List.mem_cons_of_mem x ha) k j hx hj
  -- The insertion point lies to the right of the elements not above `x`.
  have hans : ∀ a ∈ xs, (cmp x a).map not = .ok true ∨ (cmp x a).map not = .ok false := by
    intro a ha
    rcases hk.keys a (List.mem_cons_of_mem x ha) with ⟨j, hj, hSj⟩
    rw [hcmp a ha j hj]
    rcases hord.answers k j hSk hSj with h | h <;> simp [h, Except.map]
  have hdown : xs.Pairwise fun a b =>
      (cmp x b).map not = .ok true → (cmp x a).map not = .ok true := by
    refine List.Pairwise.imp_of_mem ?_ harr
    intro a b ha hb hab hxb
    rcases hk.keys a (List.mem_cons_of_mem x ha) with ⟨j, hj, hSj⟩
    rcases hk.keys b (List.mem_cons_of_mem x hb) with ⟨l, hl, hSl⟩
    rw [hcmp a ha j hj]
    rw [hcmp b hb l hl] at hxb
    rcases hord.answers k j hSk hSj with h | h
    · -- Were `x` below `a`, it would be below `b`.
      have hkl : lt k l = .ok true := by
        rcases (precedes_some hj hl).mp hab with hjl | ⟨rfl, -⟩
        · exact hord.trans k j l hSk hSj hSl h hjl
        · exact h
      rw [hkl] at hxb
      simp [Except.map] at hxb
    · simp [h, Except.map]
  rcases bisect_spec _ xs hans hdown with ⟨n, hn, htake, hdrop⟩
  refine ⟨xs.take n ++ x :: xs.drop n, by rw [insort, bisectRight, hn, Except.map], ?_, ?_⟩
  · have hbefore : ∀ a ∈ xs.take n, Precedes lt false key R a x := by
      intro a ha
      have hmem := List.mem_of_mem_take ha
      rcases hk.keys a (List.mem_cons_of_mem x hmem) with ⟨j, hj, hSj⟩
      have hxa := htake a ha
      rw [hcmp a hmem j hj] at hxa
      rw [precedes_some hj hx]
      by_cases hjk : j = k
      · exact Or.inr ⟨hjk, hR a hmem⟩
      · refine Or.inl (hord.lt_of_not_lt hSk hSj (fun hc => hjk hc.symm) ?_)
        rcases hord.answers k j hSk hSj with h | h
        · rw [h] at hxa
          simp [Except.map] at hxa
        · exact h
    have hafter : ∀ a ∈ xs.drop n, Precedes lt false key R x a := by
      intro a ha
      have hmem := List.mem_of_mem_drop ha
      rcases hk.keys a (List.mem_cons_of_mem x hmem) with ⟨j, hj, hSj⟩
      have hxa := hdrop a ha
      rw [hcmp a hmem j hj] at hxa
      rw [precedes_some hx hj]
      refine Or.inl ?_
      rcases hord.answers k j hSk hSj with h | h
      · exact h
      · rw [h] at hxa
        simp [Except.map] at hxa
    rw [← List.take_append_drop n xs, Arranged, List.pairwise_append] at harr
    rw [Arranged, List.pairwise_append, List.pairwise_cons]
    refine ⟨harr.1, ⟨hafter, harr.2.1⟩, fun a ha b hb => ?_⟩
    rcases List.mem_cons.mp hb with rfl | hb
    · exact hbefore a ha
    · exact harr.2.2 a ha b hb
  · refine List.perm_middle.trans ?_
    rw [List.take_append_drop]

/-- Sorting a list whose elements came in the order `R`. -/
theorem sortedRun_stable (hord : OrderedOn lt S) {xs : List α} (hk : Keyed lt cmp key S xs)
    (hxs : xs.Pairwise R) :
    ∃ ys, sortedRun cmp xs = .ok ys ∧ Arranged lt false key R ys ∧ ys.Perm xs := by
  have hloop : ∀ (zs acc : List α), Keyed lt cmp key S (acc ++ zs) → Arranged lt false key R acc →
      zs.Pairwise R → (∀ a ∈ acc, ∀ b ∈ zs, R a b) →
      ∃ ys, zs.foldlM (insort cmp) acc = .ok ys ∧ Arranged lt false key R ys ∧
        ys.Perm (acc ++ zs) := by
    intro zs
    induction zs with
    | nil =>
        intro acc _ harr _ _
        exact ⟨acc, rfl, harr, by rw [List.append_nil]⟩
    | cons z zs ih =>
        intro acc hk harr hzs hR
        rw [List.pairwise_cons] at hzs
        have hkz : Keyed lt cmp key S (z :: acc) := hk.mono fun a ha => by
          rcases List.mem_cons.mp ha with rfl | ha <;> simp [*]
        rcases insort_stable hord hkz harr fun a ha => hR a ha z List.mem_cons_self with
          ⟨acc', hins, harr', hperm⟩
        have hmem : ∀ a, a ∈ acc' ↔ a = z ∨ a ∈ acc := fun a => by
          rw [hperm.mem_iff, List.mem_cons]
        rcases ih acc' (hk.mono fun a ha => by
            rw [List.mem_append, hmem] at ha
            simp only [List.mem_append, List.mem_cons]
            tauto) harr' hzs.2 (fun a ha b hb => by
            rcases (hmem a).mp ha with rfl | ha
            · exact hzs.1 b hb
            · exact hR a ha b (List.mem_cons_of_mem z hb)) with ⟨ys, hfold, hys, hperm'⟩
        refine ⟨ys, by rw [List.foldlM_cons, hins]; exact hfold, hys, hperm'.trans ?_⟩
        exact (hperm.append_right zs).trans List.perm_middle.symm
  exact hloop xs [] hk List.Pairwise.nil hxs fun a ha => absurd ha List.not_mem_nil

/-- Turning a list round turns the direction and the order of the ties. -/
theorem arranged_reverse {xs : List α} (hkeys : ∀ a ∈ xs, ∃ k, key a = some k)
    (harr : Arranged lt false key (fun a b => R b a) xs) :
    Arranged lt true key R xs.reverse := by
  rw [Arranged, List.pairwise_reverse]
  refine List.Pairwise.imp_of_mem ?_ harr
  intro a b ha hb hab
  rcases hkeys a ha with ⟨k, hk⟩
  rcases hkeys b hb with ⟨j, hj⟩
  rw [precedes_some hk hj] at hab
  rw [precedes_some hj hk]
  exact hab.imp id fun h => ⟨h.1.symm, h.2⟩

/-- A stable sort arranges a list. -/
theorem stableSort_spec (hord : OrderedOn lt S) (desc : Bool) {xs : List α}
    (hk : Keyed lt cmp key S xs) (hxs : xs.Pairwise R) :
    ∃ ys, stableSort cmp desc xs = .ok ys ∧ Arranged lt desc key R ys ∧ ys.Perm xs := by
  cases desc with
  | false => exact sortedRun_stable hord hk hxs
  | true =>
      rcases sortedRun_stable (R := fun a b => R b a) hord
        (hk.mono fun a ha => List.mem_reverse.mp ha) (List.pairwise_reverse.mpr hxs) with
        ⟨ys, hsort, harr, hperm⟩
      refine ⟨ys.reverse, by rw [stableSort, if_pos rfl, hsort]; rfl, ?_, ?_⟩
      · refine arranged_reverse (fun a ha => ?_) harr
        rcases hk.keys a (List.mem_reverse.mp (hperm.mem_iff.mp ha)) with ⟨k, hka, -⟩
        exact ⟨k, hka⟩
      · exact (List.reverse_perm ys).trans (hperm.trans (List.reverse_perm xs))

end Sorting

section Groups

variable {lt : κ → κ → Except ε Bool} {desc : Bool} {key : α → Option κ} {R : α → α → Prop}

/-- The groups of keys that go in the asked direction, and those without a key
    after them, are arranged. -/
theorem groups_arranged {group : κ → List α} {ks : List κ} {rest : List α}
    (hks : ks.Pairwise fun k j => directed lt desc k j = .ok true)
    (hgroup : ∀ k ∈ ks, ∀ a ∈ group k, key a = some k) (hties : ∀ k ∈ ks, (group k).Pairwise R)
    (hrest : ∀ a ∈ rest, key a = none) (hlast : rest.Pairwise R) :
    Arranged lt desc key R (ks.flatMap group ++ rest) := by
  rw [Arranged, List.pairwise_append, List.pairwise_flatMap]
  refine ⟨⟨fun k hk => ?_, ?_⟩, ?_, fun a ha b hb => ?_⟩
  · refine List.Pairwise.imp_of_mem ?_ (hties k hk)
    intro a b ha hb hab
    rw [precedes_some (hgroup k hk a ha) (hgroup k hk b hb)]
    exact Or.inr ⟨rfl, hab⟩
  · refine List.Pairwise.imp_of_mem ?_ hks
    intro k j hk hj hkj a ha b hb
    rw [precedes_some (hgroup k hk a ha) (hgroup j hj b hb)]
    exact Or.inl hkj
  · refine List.Pairwise.imp_of_mem ?_ hlast
    intro a b ha hb hab
    rw [precedes_none (hrest a ha) (hrest b hb)]
    exact hab
  · rcases List.mem_flatMap.mp ha with ⟨k, hk, ha⟩
    exact precedes_last (hgroup k hk a ha) (hrest b hb)

/-- What is collected is a beginning of all the groups: the whole of them, or
    as much as was asked for. -/
theorem collect_spec (group : κ → List α) (stop : Nat) (ks : List κ) :
    ∀ out : List α,
      (collect group stop out ks = (out ++ ks.flatMap group, false)) ∨
      ∃ got more, collect group stop out ks = (got, true) ∧ stop ≤ got.length ∧
        out ++ ks.flatMap group = got ++ more := by
  induction ks with
  | nil =>
      intro out
      exact Or.inl (by rw [collect, List.flatMap_nil, List.append_nil])
  | cons k ks ih =>
      intro out
      rw [collect, List.flatMap_cons, ← List.append_assoc]
      split
      · rename_i hfull
        exact Or.inr ⟨_, ks.flatMap group, rfl, hfull, rfl⟩
      · exact ih (out ++ group k)

end Groups

end DataCrystal
