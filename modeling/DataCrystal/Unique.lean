import DataCrystal.Steps

/-!
# Unique Keys of a Commit

The first phase refuses a commit that would give two records one unique key. It
asks the unique map of each class, which is made for the purpose if it is not
there, and it remembers the keys it met in the commit itself.

A key may have a holder all the same: the entity itself, which keeps the key, or
an entity the commit deletes, whose key is free to be claimed again. A holder
that changes its key in the same commit does not free it, so two entities cannot
swap their keys. This leniency towards deletions is all the third phase has to
cope with when it folds the writes in before the deletions.

## Main definitions

* `Claims`: A key met in a commit, with the entity that has it.
* `UniqueOk`: What a commit that was not refused looks like.

## Theorems

* `checkUniqueField_ok`, `checkUniqueEntry_ok`: One value, and one entity.
* `checkUnique_ok`: A commit that passes the check is unique.
-/

namespace DataCrystal

open ClassIndexes

namespace IndexManager

variable {types : Types} {b : Backend} {lineage : String → Lineage} {m m' : IndexManager}

/-- An index that was made stays. -/
theorem ensures_keeps {c : String} {ci : ClassIndexes} (h : m.byCls.get? c = some ci)
    (hsteps : Relation.ReflTransGen (Ensures types b lineage) m m') :
    m'.byCls.get? c = some ci := by
  induction hsteps with
  | refl => exact h
  | tail _ hstep ih =>
      cases hstep with
      | loaded d di hnone =>
          have hne : c ≠ d := fun hc => by rw [← hc, ih] at hnone; cases hnone
          exact (Dict.get?_set_ne _ _ hne).trans ih
      | built d di hnone =>
          have hne : c ≠ d := fun hc => by rw [← hc, ih] at hnone; cases hnone
          exact (Dict.get?_set_ne _ _ hne).trans ih

/-- A key met in a commit, with the entity that has it. -/
def Claims (seen : Seen) (c f : String) (k : Key) (oid : Nat) : Prop :=
  ∃ s : Scalar, (c, f, .scalar s, oid) ∈ seen ∧ s.key = k

/-- What was met so far: scalars, and each key with one entity. This is the
    invariant of the check, which goes through the entities of a commit and raises
    where a key comes up with a second one. -/
structure SeenOk (seen : Seen) : Prop where
  scalar : ∀ x ∈ seen, ∃ s, x.2.2.1 = .scalar s
  one : ∀ c f k n n', Claims seen c f k n → Claims seen c f k n' → n = n'

/-- A value a unique field can have. -/
def Plain (v : Val LiveRef) : Prop := v = .none ∨ ∃ s, v = .scalar s

theorem plain_of_keyed {ti : TypeInfo} {row : String → Val LiveRef} {f : String}
    (hf : f ∈ ti.uniqueFields)
    (hkeyed : (row f).indexKeys (ti.listFields.contains f) = .ok (rowKeys ti row f)) :
    Plain (row f) ∧ ∀ k, some k ∈ rowKeys ti row f → ∃ s, row f = .scalar s ∧ s.key = k := by
  have hlist : ti.listFields.contains f = false := by
    simpa using ti.not_list_of_unique hf
  rw [hlist] at hkeyed
  unfold Val.indexKeys at hkeyed
  rw [if_neg (by decide)] at hkeyed
  cases hv : row f with
  | none =>
      rw [hv] at hkeyed
      refine ⟨Or.inl rfl, fun k hk => ?_⟩
      rw [← Except.ok.inj hkeyed] at hk
      simp at hk
  | scalar s =>
      rw [hv] at hkeyed
      refine ⟨Or.inr ⟨s, rfl⟩, fun k hk => ⟨s, rfl, ?_⟩⟩
      rw [← Except.ok.inj hkeyed] at hk
      simpa [eq_comm] using hk
  | leaf r => rw [hv] at hkeyed; cases hkeyed
  | seq kind xs => rw [hv] at hkeyed; cases hkeyed
  | dict xs => rw [hv] at hkeyed; cases hkeyed

section Field

variable {ci : ClassIndexes} {deleted : List Nat} {oid : Nat} {c f : String} {seen seen' : Seen}

theorem claims_cons {s : Scalar} {d g : String} {k : Key} {n : Nat} :
    Claims ((c, f, .scalar s, oid) :: seen) d g k n ↔
      (d = c ∧ g = f ∧ k = s.key ∧ n = oid) ∨ Claims seen d g k n := by
  constructor
  · rintro ⟨t, hmem, rfl⟩
    rcases List.mem_cons.mp hmem with heq | hmem
    · simp only [Prod.mk.injEq, Val.scalar.injEq] at heq
      rcases heq with ⟨rfl, rfl, rfl, rfl⟩
      exact Or.inl ⟨rfl, rfl, rfl, rfl⟩
    · exact Or.inr ⟨t, hmem, rfl⟩
  · rintro (⟨rfl, rfl, rfl, rfl⟩ | ⟨t, hmem, rfl⟩)
    · exact ⟨s, List.mem_cons_self, rfl⟩
    · exact ⟨t, List.mem_cons_of_mem _ hmem, rfl⟩

/-- The key of a value that passes is held by nobody else, but for entities the
    commit deletes, and is met nowhere else in the commit. -/
theorem checkUniqueField_ok {v : Val LiveRef} (hv : Plain v) (hseen : SeenOk seen)
    (h : checkUniqueField ci deleted oid c f v seen = .ok seen') :
    SeenOk seen' ∧ (∀ d g k n, Claims seen d g k n → Claims seen' d g k n) ∧
      ∀ s, v = .scalar s → Claims seen' c f s.key oid ∧
        ∀ n, ci.holder f s.key = some n → n ∈ deleted ∨ n = oid := by
  rcases hv with rfl | ⟨s, rfl⟩
  · rw [checkUniqueField, Except.ok.injEq] at h
    subst h
    exact ⟨hseen, fun d g k n hk => hk, fun s hs => nomatch hs⟩
  · unfold checkUniqueField at h
    simp only [Val.lookupKey, Option.bind_some, id] at h
    split at h
    · cases h
    · rename_i hfree
      have hholder : ∀ n, ci.holder f s.key = some n → n ∈ deleted ∨ n = oid := by
        intro n hn
        by_cases hdel : n ∈ deleted
        · exact Or.inl hdel
        · refine Or.inr ?_
          rw [hn, Option.filter_some, if_pos (by simpa using hdel)] at hfree
          simpa using hfree
      cases hfind : seen.find? fun e => e.1 = c && e.2.1 = f &&
          (Val.scalar s : Val LiveRef).same e.2.2.1 with
      | some x =>
          simp only [hfind] at h
          split at h
          · cases h
          · rename_i hsame
            rw [Except.ok.injEq] at h
            subst h
            -- The key was met before, and with this entity.
            have hx := List.find?_some hfind
            have hmem := List.mem_of_find?_eq_some hfind
            rcases hseen.scalar x hmem with ⟨t, ht⟩
            rw [ht] at hx
            simp only [Bool.and_eq_true, decide_eq_true_eq, Val.same_scalar_iff] at hx
            rcases hx with ⟨⟨hc, hf⟩, hkey⟩
            have hclaim : Claims seen c f s.key oid := by
              refine ⟨t, ?_, hkey.symm⟩
              have hoid : x.2.2.2 = oid := by_contra fun hne => hsame hne
              rw [← hc, ← hf, ← ht, ← hoid]
              exact hmem
            exact ⟨hseen, fun d g k n hk => hk, fun s' hs' => by
              rw [Val.scalar.injEq] at hs'
              rw [← hs']
              exact ⟨hclaim, hholder⟩⟩
      | none =>
          simp only [hfind, Except.ok.injEq] at h
          subst h
          rw [List.find?_eq_none] at hfind
          -- Nobody claimed the key so far.
          have hnew : ∀ n, ¬Claims seen c f s.key n := by
            rintro n ⟨t, hmem, hkey⟩
            refine hfind _ hmem ?_
            simp only [Bool.and_eq_true, decide_eq_true_eq, Val.same_scalar_iff, true_and]
            exact hkey.symm
          refine ⟨⟨fun x hx => ?_, fun d g k n n' hk hk' => ?_⟩, fun d g k n hk => ?_,
            fun s' hs' => ?_⟩
          · rcases List.mem_cons.mp hx with rfl | hx
            · exact ⟨s, rfl⟩
            · exact hseen.scalar x hx
          · rw [claims_cons] at hk hk'
            rcases hk with ⟨rfl, rfl, rfl, rfl⟩ | hk <;> rcases hk' with ⟨hd, hg, hkey, hn'⟩ | hk'
            · exact hn'.symm
            · exact absurd hk' (hnew _)
            · rw [hd, hg, hkey] at hk
              exact absurd hk (hnew _)
            · exact hseen.one d g k n n' hk hk'
          · exact claims_cons.mpr (Or.inr hk)
          · rw [Val.scalar.injEq] at hs'
            rw [← hs']
            exact ⟨claims_cons.mpr (Or.inl ⟨rfl, rfl, rfl, rfl⟩), hholder⟩

/-- The unique values of one entity, field by field. -/
theorem checkUniqueFields_ok {value : String → Val LiveRef} (fields : List String) :
    ∀ {seen : Seen}, (∀ f ∈ fields, Plain (value f)) → SeenOk seen →
      fields.foldlM (fun seen f => checkUniqueField ci deleted oid c f (value f) seen) seen =
        .ok seen' →
      SeenOk seen' ∧ (∀ d g k n, Claims seen d g k n → Claims seen' d g k n) ∧
        ∀ f ∈ fields, ∀ s, value f = .scalar s → Claims seen' c f s.key oid ∧
          ∀ n, ci.holder f s.key = some n → n ∈ deleted ∨ n = oid := by
  induction fields with
  | nil =>
      intro seen _ hseen h
      cases h
      exact ⟨hseen, fun d g k n hk => hk, fun f hf => absurd hf List.not_mem_nil⟩
  | cons f fields ih =>
      intro seen hplain hseen h
      rw [List.foldlM_cons] at h
      rcases except_bind_ok_iff.mp h with ⟨seen₁, hone, hrest⟩
      rcases checkUniqueField_ok (hplain f List.mem_cons_self) hseen hone with
        ⟨hseen₁, hkeep₁, hfield⟩
      rcases ih (fun g hg => hplain g (List.mem_cons_of_mem f hg)) hseen₁ hrest with
        ⟨hseen₂, hkeep₂, hfields⟩
      refine ⟨hseen₂, fun d g k n hk => hkeep₂ d g k n (hkeep₁ d g k n hk), fun g hg s hs => ?_⟩
      rcases List.mem_cons.mp hg with rfl | hg
      · exact ⟨hkeep₂ _ _ _ _ (hfield s hs).1, (hfield s hs).2⟩
      · exact hfields g hg s hs

end Field

/-- The keys of a field of an index entry. -/
def entryKeys (types : Types) (e : IndexEntry) (f : String) : List (Option Key) :=
  rowKeys (types.info e.2.1) (entryValue e.2.2) f

/-- The unique fields of an entry hold values that can be indexed. -/
def EntryKeyed (types : Types) (e : IndexEntry) : Prop :=
  ∀ f ∈ (types.info e.2.1).uniqueFields,
    (entryValue e.2.2 f).indexKeys ((types.info e.2.1).listFields.contains f) =
      .ok (entryKeys types e f)

/-- What a commit that was not refused looks like: the indexes of its classes
    are made, its keys are free, and it holds none of them twice. -/
structure UniqueOk (types : Types) (entries : List IndexEntry) (deleted : List Nat)
    (m : IndexManager) : Prop where
  built : ∀ e ∈ entries, (types.info e.2.1).uniqueFields ≠ [] →
    ∃ ci, m.byCls.get? e.2.1 = some ci
  free : ∀ e ∈ entries, ∀ ci, m.byCls.get? e.2.1 = some ci →
    ∀ f ∈ (types.info e.2.1).uniqueFields, ∀ k, some k ∈ entryKeys types e f →
      ∀ n, ci.holder f k = some n → n ∈ deleted ∨ n = e.1
  distinct : ∀ e ∈ entries, ∀ e' ∈ entries, e.2.1 = e'.2.1 →
    ∀ f ∈ (types.info e.2.1).uniqueFields, ∀ k, some k ∈ entryKeys types e f →
      some k ∈ entryKeys types e' f → e.1 = e'.1

/-- What the check has made sure of about one entity: its keys are noted, and a
    holder of one of them is deleted by this commit or is the entity itself. -/
def Checked (types : Types) (deleted : List Nat) (seen : Seen) (m : IndexManager)
    (e : IndexEntry) : Prop :=
  (types.info e.2.1).uniqueFields ≠ [] → ∃ ci, m.byCls.get? e.2.1 = some ci ∧
    ∀ f ∈ (types.info e.2.1).uniqueFields, ∀ k, some k ∈ entryKeys types e f →
      Claims seen e.2.1 f k e.1 ∧ ∀ n, ci.holder f k = some n → n ∈ deleted ∨ n = e.1

theorem checkUniqueEntry_ok {deleted : List Nat} {seen seen' : Seen} {e : IndexEntry}
    (hkeyed : EntryKeyed types e) (hseen : SeenOk seen)
    (h : checkUniqueEntry types b lineage deleted seen e m = .ok seen' m') :
    SeenOk seen' ∧ (∀ d g k n, Claims seen d g k n → Claims seen' d g k n) ∧
      Relation.ReflTransGen (Ensures types b lineage) m m' ∧
      Checked types deleted seen' m' e := by
  unfold checkUniqueEntry at h
  by_cases hnone : (types.info e.2.1).uniqueFields = []
  · rw [if_pos (by rw [hnone]; rfl)] at h
    cases h
    exact ⟨hseen, fun d g k n hk => hk, .refl, fun hno => absurd hnone hno⟩
  · rw [if_neg (by rw [List.isEmpty_iff]; exact hnone)] at h
    rcases bind_ok_iff.mp h with ⟨ci, m₁, hensure, h⟩
    rcases ofExcept_ok_iff.mp h with ⟨hfields, rfl⟩
    rcases checkUniqueFields_ok _ (fun f hf => (plain_of_keyed hf (hkeyed f hf)).1) hseen hfields
      with ⟨hseen', hkeep, hall⟩
    refine ⟨hseen', hkeep, (Store.moves_ensure e.2.1 m).of_ok hensure,
      fun _ => ⟨ci, Store.ensure_ok hensure, fun f hf k hk => ?_⟩⟩
    rcases (plain_of_keyed hf (hkeyed f hf)).2 k hk with ⟨s, hs, rfl⟩
    exact hall f hf s hs

theorem Checked.mono {deleted : List Nat} {seen seen' : Seen} {e : IndexEntry}
    (h : Checked types deleted seen m e)
    (hkeep : ∀ d g k n, Claims seen d g k n → Claims seen' d g k n)
    (hsteps : Relation.ReflTransGen (Ensures types b lineage) m m') :
    Checked types deleted seen' m' e := by
  intro hno
  rcases h hno with ⟨ci, hci, hall⟩
  refine ⟨ci, ensures_keeps hci hsteps, fun f hf k hk => ?_⟩
  exact ⟨hkeep _ _ _ _ (hall f hf k hk).1, (hall f hf k hk).2⟩

/-- The entities of a commit, one after the other. -/
theorem checkUniqueEntries_ok {deleted : List Nat} (entries : List IndexEntry) :
    ∀ {seen seen' : Seen} {m : IndexManager}, (∀ e ∈ entries, EntryKeyed types e) →
      SeenOk seen →
      entries.foldlM (checkUniqueEntry types b lineage deleted) seen m = .ok seen' m' →
      SeenOk seen' ∧ (∀ d g k n, Claims seen d g k n → Claims seen' d g k n) ∧
        Relation.ReflTransGen (Ensures types b lineage) m m' ∧
        ∀ e ∈ entries, Checked types deleted seen' m' e := by
  induction entries with
  | nil =>
      intro seen seen' m _ hseen h
      cases h
      exact ⟨hseen, fun d g k n hk => hk, .refl, fun e he => absurd he List.not_mem_nil⟩
  | cons e entries ih =>
      intro seen seen' m hkeyed hseen h
      rw [List.foldlM_cons] at h
      rcases bind_ok_iff.mp h with ⟨seen₁, m₁, hone, hrest⟩
      rcases checkUniqueEntry_ok (hkeyed e List.mem_cons_self) hseen hone with
        ⟨hseen₁, hkeep₁, hsteps₁, hchecked⟩
      rcases ih (fun e' he => hkeyed e' (List.mem_cons_of_mem e he)) hseen₁ hrest with
        ⟨hseen₂, hkeep₂, hsteps₂, hall⟩
      refine ⟨hseen₂, fun d g k n hk => hkeep₂ d g k n (hkeep₁ d g k n hk),
        hsteps₁.trans hsteps₂, fun e' he => ?_⟩
      rcases List.mem_cons.mp he with rfl | he
      · exact hchecked.mono hkeep₂ hsteps₂
      · exact hall e' he

/-- A commit that passes the check is unique. -/
theorem checkUnique_ok {entries : List IndexEntry} {deleted : List Nat}
    (hkeyed : ∀ e ∈ entries, EntryKeyed types e)
    (h : checkUnique types b lineage entries deleted m = .ok () m') :
    UniqueOk types entries deleted m' := by
  rcases bind_ok_iff.mp h with ⟨seen, m₁, hfold, hpure⟩
  cases hpure
  have hempty : SeenOk [] := by
    refine ⟨fun x hx => absurd hx List.not_mem_nil, ?_⟩
    rintro c f k n n' ⟨s, hs, -⟩
    exact absurd hs List.not_mem_nil
  rcases checkUniqueEntries_ok entries hkeyed hempty hfold with ⟨hseen, -, -, hall⟩
  refine ⟨fun e he hno => ?_, fun e he ci hci f hf k hk n hn => ?_,
    fun e he e' he' hcls f hf k hk hk' => ?_⟩
  · rcases hall e he hno with ⟨ci, hci, -⟩
    exact ⟨ci, hci⟩
  · rcases hall e he (List.ne_nil_of_mem hf) with ⟨di, hdi, hfree⟩
    rw [hci, Option.some.injEq] at hdi
    exact (hfree f hf k hk).2 n (hdi ▸ hn)
  · have hf' : f ∈ (types.info e'.2.1).uniqueFields := hcls ▸ hf
    rcases hall e he (List.ne_nil_of_mem hf) with ⟨ci, -, hone⟩
    rcases hall e' he' (List.ne_nil_of_mem hf') with ⟨ci', -, hother⟩
    have hclaim := (hone f hf k hk).1
    rw [hcls] at hclaim
    exact hseen.one _ f k e.1 e'.1 hclaim (hother f hf' k hk').1

end IndexManager

end DataCrystal
