import Mathlib.Data.Finset.Image
import Mathlib.Data.Finset.Union

/-!
# Postings

A relation between sources and targets that is kept by its targets: a finite set
of edges, target first, read by asking for the sources of one target. Its sources
change their minds as a whole. `redirect` gives one source new targets and
`withdraw` takes a source out, and the lemmas say what each does to the posting of
a single target, so that a reader who wants one posting after many changes can
compute it from that posting and the changes alone.

## Main definitions

* `posting`: The sources of a target.
* `withdraw`: Take a source out.
* `redirect`: Give a source new targets.

## Theorems

* `mem_redirect`, `mem_withdraw`: One change, edge by edge.
* `posting_redirect`: One change, as one posting sees it.
* `mem_foldl_redirect`: Many changes, each source changing once.
-/

namespace DataCrystal

namespace Postings

variable {κ ν : Type} [DecidableEq ν] {edges : Finset (κ × ν)} {source n : ν} {target t : κ}

/-- Take a source out. -/
def withdraw (source : ν) (edges : Finset (κ × ν)) : Finset (κ × ν) :=
  edges.filter fun e => e.2 ≠ source

theorem mem_withdraw : (t, n) ∈ withdraw source edges ↔ (t, n) ∈ edges ∧ n ≠ source := by
  unfold withdraw
  rw [Finset.mem_filter]

/-- Taking many sources out. -/
theorem mem_foldl_withdraw (sources : List ν) : ∀ edges : Finset (κ × ν),
    (t, n) ∈ sources.foldl (fun edges s => withdraw s edges) edges ↔
      (t, n) ∈ edges ∧ n ∉ sources := by
  induction sources with
  | nil => exact fun edges => by simp
  | cons s sources ih =>
      intro edges
      rw [List.foldl_cons, ih, mem_withdraw, List.mem_cons, not_or, and_assoc]

variable [DecidableEq κ]

/-- The sources of a target. -/
def posting (edges : Finset (κ × ν)) (target : κ) : Finset ν :=
  (edges.filter fun e => e.1 = target).image Prod.snd

/-- Give a source new targets. -/
def redirect (source : ν) (targets : Finset κ) (edges : Finset (κ × ν)) : Finset (κ × ν) :=
  withdraw source edges ∪ targets.image fun t => (t, source)

variable {targets : Finset κ}

@[simp]
theorem mem_posting : n ∈ posting edges target ↔ (target, n) ∈ edges := by
  unfold posting
  rw [Finset.mem_image]
  constructor
  · rintro ⟨⟨t, m⟩, he, rfl⟩
    rw [Finset.mem_filter] at he
    exact he.2 ▸ he.1
  · intro h
    exact ⟨(target, n), Finset.mem_filter.mpr ⟨h, rfl⟩, rfl⟩

theorem mem_redirect : (t, n) ∈ redirect source targets edges ↔
    if n = source then t ∈ targets else (t, n) ∈ edges := by
  unfold redirect
  rw [Finset.mem_union, mem_withdraw, Finset.mem_image]
  by_cases hn : n = source
  · rw [if_pos hn]
    constructor
    · rintro (⟨-, hne⟩ | ⟨t', ht', heq⟩)
      · exact absurd hn hne
      · rw [← (Prod.mk.inj heq).1]
        exact ht'
    · exact fun ht => Or.inr ⟨t, ht, by rw [hn]⟩
  · rw [if_neg hn]
    constructor
    · rintro (⟨he, -⟩ | ⟨t', -, heq⟩)
      · exact he
      · exact absurd (Prod.mk.inj heq).2.symm hn
    · exact fun he => Or.inl ⟨he, hn⟩

/-- A posting gains or loses the source that changed, and no other. -/
theorem posting_redirect : posting (redirect source targets edges) target =
    if target ∈ targets then insert source (posting edges target)
    else (posting edges target).erase source := by
  ext n
  rw [mem_posting, mem_redirect]
  by_cases ht : target ∈ targets
  · rw [if_pos ht, Finset.mem_insert, mem_posting]
    by_cases hn : n = source <;> simp [hn, ht]
  · rw [if_neg ht, Finset.mem_erase, mem_posting]
    by_cases hn : n = source <;> simp [hn, ht]

/-- Redirecting many sources leaves the others alone. -/
theorem mem_foldl_redirect_other (changes : List (ν × Finset κ)) (hn : n ∉ changes.map Prod.fst) :
    ∀ edges : Finset (κ × ν),
      (t, n) ∈ changes.foldl (fun edges c => redirect c.1 c.2 edges) edges ↔ (t, n) ∈ edges := by
  induction changes with
  | nil => exact fun edges => Iff.rfl
  | cons c changes ih =>
      intro edges
      rw [List.map_cons, List.mem_cons, not_or] at hn
      rw [List.foldl_cons, ih hn.2, mem_redirect, if_neg hn.1]

/-- When each source is redirected once, it ends with the targets it was given. -/
theorem mem_foldl_redirect (changes : List (ν × Finset κ)) (hnd : (changes.map Prod.fst).Nodup)
    (hmem : (n, targets) ∈ changes) : ∀ edges : Finset (κ × ν),
      (t, n) ∈ changes.foldl (fun edges c => redirect c.1 c.2 edges) edges ↔ t ∈ targets := by
  induction changes with
  | nil => exact absurd hmem List.not_mem_nil
  | cons c changes ih =>
      intro edges
      rw [List.map_cons, List.nodup_cons] at hnd
      rw [List.foldl_cons]
      rcases List.mem_cons.mp hmem with hc | hlater
      · -- what comes later redirects other sources
        rw [← hc] at hnd ⊢
        rw [mem_foldl_redirect_other changes hnd.1, mem_redirect, if_pos rfl]
      · exact ih hnd.2 hlater _

end Postings

end DataCrystal
