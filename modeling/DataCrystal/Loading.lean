import DataCrystal.Loads
import DataCrystal.Refused

/-!
# Loading a Graph

A load makes a shell for the record it is asked for, registers it, and fills it; an
eager reference in a field makes a shell for its target, which waits in the queue.
A target that is registered already is taken as it is, so a back edge finds the
shell it leads to, and an instance of before the load is not filled again.

A shell stands under an OID that was free and that has a record, so there are no
more shells than records. That is why the queue runs empty: the fuel of the model,
one more than there are records, is never used up.

What the eager references lead to is therefore followed through the OIDs that were
free when the load began. Behind an instance that was registered the load does not
look, and the record that instance was read from may name an OID that nothing is
registered under any more.

## Main definitions

* `Val.Rel`: Two value trees with related references.
* `RefResolved`: What a reference of a payload becomes.
* `Filled`: An object whose fields are those of its record.
* `Loading`: A load on its way.
* `EagerlyReached`: What a load follows.

## Theorems

* `loadOid_fills`: A load that returns.
* `loadOid_restores`: A load that raises.
* `materialize_graph`: Both.
-/

namespace DataCrystal

namespace Val

variable {ρ τ σ ε : Type}

/-- Two value trees of one shape whose references are related. -/
def Rel (R : ρ → τ → Prop) : Val ρ → Val τ → Prop
  | .none, .none => True
  | .scalar a, .scalar b => a = b
  | .leaf r, .leaf t => R r t
  | .seq k xs, .seq k' ys => k = k' ∧ relItems xs ys
  | .dict xs, .dict ys => relEntries xs ys
  | _, _ => False
where
  relItems : List (Val ρ) → List (Val τ) → Prop
    | [], [] => True
    | x :: xs, y :: ys => Rel R x y ∧ relItems xs ys
    | _, _ => False
  relEntries : List (Scalar × Val ρ) → List (Scalar × Val τ) → Prop
    | [], [] => True
    | (k, x) :: xs, (k', y) :: ys => k = k' ∧ Rel R x y ∧ relEntries xs ys
    | _, _ => False

theorem Rel.mono {R S : ρ → τ → Prop} (h : ∀ r t, R r t → S r t) :
    ∀ (v : Val ρ) (w : Val τ), Rel R v w → Rel S v w
  | .none, .none, _ => trivial
  | .scalar _, .scalar _, hvw => hvw
  | .leaf r, .leaf t, hvw => h r t hvw
  | .seq _ xs, .seq _ ys, hvw => ⟨hvw.1, items xs ys hvw.2⟩
  | .dict xs, .dict ys, hvw => entries xs ys hvw
where
  items : ∀ (xs : List (Val ρ)) (ys : List (Val τ)), Rel.relItems R xs ys → Rel.relItems S xs ys
    | [], [], _ => trivial
    | x :: xs, y :: ys, hxy => ⟨Rel.mono h x y hxy.1, items xs ys hxy.2⟩
  entries : ∀ (xs : List (Scalar × Val ρ)) (ys : List (Scalar × Val τ)),
      Rel.relEntries R xs ys → Rel.relEntries S xs ys
    | [], [], _ => trivial
    | (_, x) :: xs, (_, y) :: ys, hxy => ⟨hxy.1, Rel.mono h x y hxy.2.1, entries xs ys hxy.2.2⟩

/-- A reference of a related tree has its counterpart. -/
theorem Rel.exists_right {R : ρ → τ → Prop} : ∀ (v : Val ρ) (w : Val τ), Rel R v w →
    ∀ r ∈ v.leaves, ∃ t, R r t
  | .none, .none, _, r, hr => absurd hr List.not_mem_nil
  | .scalar _, .scalar _, _, r, hr => absurd hr List.not_mem_nil
  | .leaf r', .leaf t, hvw, r, hr => by
      rw [Val.leaves, List.mem_singleton] at hr
      rw [hr]
      exact ⟨t, hvw⟩
  | .seq _ xs, .seq _ ys, hvw, r, hr => items xs ys hvw.2 r hr
  | .dict xs, .dict ys, hvw, r, hr => entries xs ys hvw r hr
where
  items : ∀ (xs : List (Val ρ)) (ys : List (Val τ)), Rel.relItems R xs ys →
      ∀ r ∈ Val.leaves.itemLeaves xs, ∃ t, R r t
    | [], [], _, r, hr => absurd hr List.not_mem_nil
    | x :: xs, y :: ys, hxy, r, hr => by
        rw [Val.leaves.itemLeaves, List.mem_append] at hr
        rcases hr with hr | hr
        · exact Rel.exists_right x y hxy.1 r hr
        · exact items xs ys hxy.2 r hr
  entries : ∀ (xs : List (Scalar × Val ρ)) (ys : List (Scalar × Val τ)),
      Rel.relEntries R xs ys → ∀ r ∈ Val.leaves.entryLeaves xs, ∃ t, R r t
    | [], [], _, r, hr => absurd hr List.not_mem_nil
    | (_, x) :: xs, (_, y) :: ys, hxy, r, hr => by
        rw [Val.leaves.entryLeaves, List.mem_append] at hr
        rcases hr with hr | hr
        · exact Rel.exists_right x y hxy.2.1 r hr
        · exact entries xs ys hxy.2.2 r hr

section Mapping

variable {f : ρ → EStateM ε σ τ} {I : σ → Prop} {L : σ → σ → Prop} {R : σ → ρ → τ → Prop}

/-- Resolving the references of a value one after the other, where what holds of a
    resolved reference goes on to hold. -/
theorem mapLeaves_rel (hrefl : ∀ s, L s s)
    (htrans : ∀ s t u, I t → L s t → L t u → L s u)
    (hmono : ∀ s t r a, I s → L s t → R s r a → R t r a)
    (hf : ∀ r s a t, I s → f r s = .ok a t → I t ∧ L s t ∧ R t r a) :
    ∀ (v : Val ρ) (s : σ) (w : Val τ) (t : σ), I s → v.mapLeaves f s = .ok w t →
      I t ∧ L s t ∧ Rel (R t) v w
  | .none, s, w, t, hs, h => by
      cases h
      exact ⟨hs, hrefl s, trivial⟩
  | .scalar a, s, w, t, hs, h => by
      cases h
      exact ⟨hs, hrefl s, rfl⟩
  | .leaf r, s, w, t, hs, h => by
      rcases bind_ok_iff.mp h with ⟨a, u, hr, h⟩
      cases h
      exact hf r s a t hs hr
  | .seq k xs, s, w, t, hs, h => by
      rcases bind_ok_iff.mp h with ⟨ys, u, hxs, h⟩
      cases h
      rcases items xs s ys t hs hxs with ⟨ht, hL, hrel⟩
      exact ⟨ht, hL, rfl, hrel⟩
  | .dict xs, s, w, t, hs, h => by
      rcases bind_ok_iff.mp h with ⟨ys, u, hxs, h⟩
      cases h
      exact entries xs s ys t hs hxs
where
  items : ∀ (xs : List (Val ρ)) (s : σ) (ys : List (Val τ)) (t : σ), I s →
      Val.mapLeaves.mapItems f xs s = .ok ys t → I t ∧ L s t ∧ Rel.relItems (R t) xs ys
    | [], s, ys, t, hs, h => by
        cases h
        exact ⟨hs, hrefl s, trivial⟩
    | x :: xs, s, ys, t, hs, h => by
        rcases bind_ok_iff.mp h with ⟨y, u, hx, h⟩
        rcases bind_ok_iff.mp h with ⟨zs, v, hxs, h⟩
        cases h
        rcases mapLeaves_rel hrefl htrans hmono hf x s y u hs hx with ⟨hu, hsu, hxy⟩
        rcases items xs u zs t hu hxs with ⟨ht, hut, hrest⟩
        exact ⟨ht, htrans s u t hu hsu hut,
          Rel.mono (fun r a => hmono u t r a hu hut) x y hxy, hrest⟩
  entries : ∀ (xs : List (Scalar × Val ρ)) (s : σ) (ys : List (Scalar × Val τ)) (t : σ), I s →
      Val.mapLeaves.mapEntries f xs s = .ok ys t → I t ∧ L s t ∧ Rel.relEntries (R t) xs ys
    | [], s, ys, t, hs, h => by
        cases h
        exact ⟨hs, hrefl s, trivial⟩
    | (k, x) :: xs, s, ys, t, hs, h => by
        rcases bind_ok_iff.mp h with ⟨y, u, hx, h⟩
        rcases bind_ok_iff.mp h with ⟨zs, v, hxs, h⟩
        cases h
        rcases mapLeaves_rel hrefl htrans hmono hf x s y u hs hx with ⟨hu, hsu, hxy⟩
        rcases entries xs u zs t hu hxs with ⟨ht, hut, hrest⟩
        exact ⟨ht, htrans s u t hu hsu hut, rfl,
          Rel.mono (fun r a => hmono u t r a hu hut) x y hxy, hrest⟩

end Mapping

end Val

/-- What a field holds after it was assigned. -/
theorem field_assign_self (e : Entity) (name : String) (v : Val LiveRef) :
    (e.assign name v).field name = ((default : Entity).assign name v).field name := by
  unfold Entity.assign
  split
  · rfl
  · rfl
  · rfl
  · rfl
  · unfold Entity.field Labels.column
    split <;> simp_all

/-- An assignment leaves the other fields alone. -/
theorem field_assign_ne (e : Entity) {name other : String} (h : other ≠ name) (v : Val LiveRef) :
    (e.assign name v).field other = e.field other := by
  unfold Entity.assign
  split
  · unfold Entity.field Labels.column
    split <;> simp_all
  · unfold Entity.field Labels.column
    split <;> simp_all
  · unfold Entity.field Labels.column
    split <;> simp_all
  · unfold Entity.field Labels.column
    split <;> simp_all
  · unfold Entity.field
    dsimp only
    rw [Function.update_of_ne h]

theorem life_assign (e : Entity) (name : String) (v : Val LiveRef) :
    (e.assign name v).cls = e.cls ∧ (e.assign name v).oid = e.oid := by
  unfold Entity.assign
  split <;> exact ⟨rfl, rfl⟩

namespace Store

variable {types : Types} {s t u v : Store}

/-- The target of a reference is protected: the instance that is registered, or the
    record if there is none. -/
def TargetProtected (types : Types) (t : Store) (k : Nat) : Prop :=
  match t.registry.get? k with
  | some n => t.isProtected types n = true
  | none => ∃ rec c, t.backend.objects.get? k = some rec ∧ t.typenameByCid rec.cid = some c ∧
      (types.info c).isProtected = true

/-- What a reference of a payload becomes: the registered instance of its target, or
    a handle. -/
inductive RefResolved (types : Types) (t : Store) : Bool → Token → LiveRef → Prop
  | blob (lazyRefs : Bool) (oid : Nat) (content : List Nat) :
      RefResolved types t lazyRefs (.blob oid content) (.blob oid content)
  | handle (k : Nat) (target : Option Nat)
      (h : ∀ n, target = some n → t.registry.get? k = some n ∧ t.isProtected types n = false) :
      RefResolved types t true (.ref k) (.lazy (some k) target)
  | entity (k n : Nat) (hreg : t.registry.get? k = some n)
      (hopen : t.isProtected types n = false) : RefResolved types t false (.ref k) (.entity n)
  | unloaded (k : Nat) (h : TargetProtected types t k) :
      RefResolved types t false (.ref k) (.lazy (some k) none)

/-- A field holds what its value in the record becomes. -/
def FieldFilled (types : Types) (t : Store) (n : Nat) (e : FieldSpec × Val Token) : Prop :=
  ∃ w, Val.Rel (RefResolved types t e.1.lazyRefs) e.2 w ∧
    (t.heap.get n).field e.1.name = ((default : Entity).assign e.1.name w).field e.1.name

/-- The record of an OID, with what the fields of its class read from it. -/
def Planned (types : Types) (s : Store) (k : Nat) (rec : StoredRecord) (c : String)
    (plan : List (FieldSpec × Val Token)) : Prop :=
  s.backend.objects.get? k = some rec ∧ s.typenameByCid rec.cid = some c ∧
    hydrationPlan (types.info c) (s.persistedFields rec.cid) rec.payload = .ok plan ∧
    rec.payload.length = (s.persistedFields rec.cid).length

/-- Every field of an object is filled from the record of its OID, along the plan
    for the shape of that record. -/
def Filled (types : Types) (s t : Store) (n : Nat) : Prop :=
  ∃ k rec plan, (t.heap.get n).oid = some k ∧ Planned types s k rec (t.heap.get n).cls plan ∧
    ∀ e ∈ plan, FieldFilled types t n e

/-- An object stands for a record nothing was registered for: it has the OID and the
    class of the record, and the registry has it now. -/
def IsShell (s t : Store) (n : Nat) : Prop :=
  ∃ k rec, (t.heap.get n).oid = some k ∧ t.registry.get? k = some n ∧ s.registry.get? k = none ∧
    s.backend.objects.get? k = some rec ∧ s.typenameByCid rec.cid = some (t.heap.get n).cls

/-- What is registered is an object. -/
def RegistersObjects (s : Store) : Prop := ∀ k n, s.registry.get? k = some n → n < s.heap.size

/-- A load on its way from `s` to `t`. It has only added objects, each of them a
    shell of the one record it was made for, and registered those; what the store
    had before is where it was. -/
structure Loading (s t : Store) : Prop where
  frame : ∃ h r, t = { s with heap := h, registry := r }
  size : s.heap.size ≤ t.heap.size
  old : ∀ n < s.heap.size, t.heap.get n = s.heap.get n
  kept : ∀ k n, s.registry.get? k = some n → t.registry.get? k = some n
  fresh : ∀ k n, t.registry.get? k = some n → s.registry.get? k = some n ∨
    s.heap.size ≤ n ∧ n < t.heap.size ∧ (t.heap.get n).oid = some k
  shells : ∀ n, s.heap.size ≤ n → n < t.heap.size → IsShell s t n

theorem loading_refl (s : Store) : Loading s s where
  frame := ⟨s.heap, s.registry, rfl⟩
  size := le_rfl
  old _ _ := rfl
  kept _ _ h := h
  fresh _ _ h := Or.inl h
  shells n hle hlt := absurd hlt (by omega)

theorem Loading.registersObjects (h : Loading s t) (hs : RegistersObjects s) :
    RegistersObjects t := by
  intro k n hk
  rcases h.fresh k n hk with hold | ⟨-, hlt, -⟩
  · exact Nat.lt_of_lt_of_le (hs k n hold) h.size
  · exact hlt

/-- From `t` to `u` a load has made shells, all of them open, and changed no object
    but `o`. -/
structure Later (types : Types) (o : Option Nat) (t u : Store) : Prop where
  frame : ∃ h r, u = { t with heap := h, registry := r }
  size : t.heap.size ≤ u.heap.size
  same : ∀ n < t.heap.size, some n ≠ o → u.heap.get n = t.heap.get n
  life : ∀ n < t.heap.size, (u.heap.get n).cls = (t.heap.get n).cls ∧
    (u.heap.get n).oid = (t.heap.get n).oid
  kept : ∀ k n, t.registry.get? k = some n → u.registry.get? k = some n
  opened : ∀ k n, u.registry.get? k = some n → t.registry.get? k = none →
    ∃ rec, t.backend.objects.get? k = some rec ∧
      t.typenameByCid rec.cid = some (u.heap.get n).cls ∧ u.isProtected types n = false

theorem later_refl (o : Option Nat) (t : Store) : Later types o t t where
  frame := ⟨t.heap, t.registry, rfl⟩
  size := le_rfl
  same _ _ _ := rfl
  life _ _ := ⟨rfl, rfl⟩
  kept _ _ h := h
  opened k n h hnone := by rw [hnone] at h; cases h

theorem Later.weaken {o : Option Nat} (h : Later types none t u) : Later types o t u :=
  ⟨h.frame, h.size, fun n hn _ => h.same n hn (by simp), h.life, h.kept, h.opened⟩

/-- The class of an object, and so whether it is protected, does not change. -/
theorem Later.isProtected {o : Option Nat} (h : Later types o t u) {n : Nat}
    (hn : n < t.heap.size) : u.isProtected types n = t.isProtected types n := by
  unfold Store.isProtected Store.info
  rw [(h.life n hn).1]

theorem Later.trans {o : Option Nat} (h : Later types o t u) (h' : Later types o u v)
    (hu : RegistersObjects u) : Later types o t v := by
  rcases h.frame with ⟨hp, r, rfl⟩
  rcases h'.frame with ⟨hp', r', rfl⟩
  refine ⟨⟨hp', r', rfl⟩, h.size.trans h'.size, fun n hn hno => ?_, fun n hn => ?_,
    fun k n hk => h'.kept k n (h.kept k n hk), fun k n hk hnone => ?_⟩
  · have hsize := h.size
    exact (h'.same n (by omega) hno).trans (h.same n hn hno)
  · have hsize := h.size
    rcases h.life n hn with ⟨hcls, hoid⟩
    rcases h'.life n (by omega) with ⟨hcls', hoid'⟩
    exact ⟨hcls'.trans hcls, hoid'.trans hoid⟩
  · cases hk' : r.get? k with
    | none => exact h'.opened k n hk hk'
    | some m =>
        have hmn : m = n := Option.some.inj ((h'.kept k m hk').symm.trans hk)
        subst hmn
        have hlt := hu k m hk'
        rcases h.opened k m hk' hnone with ⟨rec, hrec, hcls, hopen⟩
        refine ⟨rec, hrec, ?_, (h'.isProtected hlt).trans hopen⟩
        rw [hcls]
        exact congrArg some (h'.life m hlt).1.symm

theorem TargetProtected.later {o : Option Nat} {k : Nat} (hp : TargetProtected types t k)
    (h : Later types o t u) (ht : RegistersObjects t) : TargetProtected types u k := by
  rcases h.frame with ⟨hp', r, hu⟩
  unfold TargetProtected at hp ⊢
  cases hk : t.registry.get? k with
  | some n =>
      rw [hk] at hp
      rw [h.kept k n hk]
      exact (h.isProtected (ht k n hk)).trans hp
  | none =>
      rw [hk] at hp
      rcases hp with ⟨rec, c, hrec, hcls, hprot⟩
      cases hk' : u.registry.get? k with
      | none =>
          rw [hu]
          exact ⟨rec, c, hrec, hcls, hprot⟩
      | some n =>
          -- A shell is made for an open record only.
          rcases h.opened k n hk' hk with ⟨rec', hrec', hcls', hopen⟩
          rw [hrec] at hrec'
          cases hrec'
          rw [hcls] at hcls'
          cases hcls'
          exact absurd (hopen.symm.trans hprot) (by simp)

/-- What a reference was resolved to stays right. -/
theorem RefResolved.later {o : Option Nat} {lazyRefs : Bool} {k : Token} {r : LiveRef}
    (hr : RefResolved types t lazyRefs k r) (h : Later types o t u) (ht : RegistersObjects t) :
    RefResolved types u lazyRefs k r := by
  cases hr with
  | blob => exact .blob _ _ _
  | handle k target htarget =>
      refine .handle k target fun n hn => ?_
      rcases htarget n hn with ⟨hreg, hopen⟩
      exact ⟨h.kept k n hreg, (h.isProtected (ht k n hreg)).trans hopen⟩
  | entity k n hreg hopen =>
      exact .entity k n (h.kept k n hreg) ((h.isProtected (ht k n hreg)).trans hopen)
  | unloaded k hprot => exact .unloaded k (hprot.later h ht)

theorem FieldFilled.later {o : Option Nat} {n : Nat} {e : FieldSpec × Val Token}
    (hf : FieldFilled types t n e) (h : Later types o t u) (ht : RegistersObjects t)
    (hfield : (u.heap.get n).field e.1.name = (t.heap.get n).field e.1.name) :
    FieldFilled types u n e := by
  rcases hf with ⟨w, hrel, hw⟩
  exact ⟨w, Val.Rel.mono (fun _ _ hr => hr.later h ht) _ _ hrel, hfield.trans hw⟩

theorem Filled.later {o : Option Nat} {n : Nat} (hf : Filled types s t n) (h : Later types o t u)
    (ht : RegistersObjects t) (hn : n < t.heap.size) (hno : some n ≠ o) : Filled types s u n := by
  rcases hf with ⟨k, rec, plan, hoid, hplan, hfields⟩
  have hsame := h.same n hn hno
  refine ⟨k, rec, plan, by rw [hsame]; exact hoid, by rw [hsame]; exact hplan, fun e he => ?_⟩
  exact (hfields e he).later h ht (by rw [hsame])

section Steps

/-- A shell for a record nothing is registered for. -/
theorem Loading.pushShell (h : Loading s t) {c : String} {k : Nat}
    {rec : StoredRecord} (hreg : t.registry.get? k = none)
    (hrec : t.backend.objects.get? k = some rec) (hcls : t.typenameByCid rec.cid = some c) :
    Loading s (t.pushShell c k) := by
  rcases h.frame with ⟨hp, r, rfl⟩
  have hget : ∀ n, n ≠ hp.size → ((({ s with heap := hp, registry := r } : Store).pushShell c k).heap.get n) =
      hp.get n := fun n hn => (Heap.get_push ..).trans (if_neg hn)
  have hself : ((({ s with heap := hp, registry := r } : Store).pushShell c k).heap.get hp.size) =
      { cls := c, oid := some k, state := .clean, hydrated := true } :=
    (Heap.get_push ..).trans (if_pos rfl)
  -- The shell is the one new instance and the one new name.
  have hsize := h.size
  refine ⟨⟨_, _, rfl⟩, Nat.le_succ_of_le hsize, fun n hn => ?_, fun j n hj => ?_, fun j n hj => ?_,
    fun n hle hlt => ?_⟩
  · exact (hget n (Nat.ne_of_lt (Nat.lt_of_lt_of_le hn hsize))).trans (h.old n hn)
  · have hne : j ≠ k := by
      rintro rfl
      rw [h.kept j n hj] at hreg
      cases hreg
    exact (Dict.get?_set_ne _ _ hne).trans (h.kept j n hj)
  -- The new name is of the new shell.
  · change (r.set k hp.size).get? j = some n at hj
    rw [Dict.get?_set] at hj
    by_cases hjk : j = k
    · rw [if_pos hjk] at hj
      cases hj
      exact Or.inr ⟨hsize, Nat.lt_succ_self _, by rw [hself, hjk]⟩
    · rw [if_neg hjk] at hj
      refine (h.fresh j n hj).imp_right fun hn => ⟨hn.1, Nat.lt_succ_of_lt hn.2.1, ?_⟩
      rw [hget n (Nat.ne_of_lt hn.2.1)]
      exact hn.2.2
  -- And the new shell has a name, a record and its class.
  · by_cases hn : n = hp.size
    · subst hn
      refine ⟨k, rec, by rw [hself], Dict.get?_set_self _ _ _, ?_, hrec, by rw [hself]; exact hcls⟩
      cases hsk : s.registry.get? k with
      | none => rfl
      | some m =>
          rw [h.kept k m hsk] at hreg
          cases hreg
    · have hlt' : n < hp.size := by
        have hlt'' : n < hp.size + 1 := hlt
        omega
      rcases h.shells n hle hlt' with ⟨j, rec', hoid, hj, hfree, hrec', hcls'⟩
      have hne : j ≠ k := by
        rintro rfl
        rw [hreg] at hj
        cases hj
      refine ⟨j, rec', by rw [hget n hn]; exact hoid, (Dict.get?_set_ne _ _ hne).trans hj, hfree,
        hrec', by rw [hget n hn]; exact hcls'⟩

theorem later_pushShell {c : String} {k : Nat} {rec : StoredRecord}
    (hreg : t.registry.get? k = none) (hrec : t.backend.objects.get? k = some rec)
    (hcls : t.typenameByCid rec.cid = some c) (hopen : (types.info c).isProtected = false) :
    Later types none t (t.pushShell c k) := by
  have hget : ∀ n, n ≠ t.heap.size → (t.pushShell c k).heap.get n = t.heap.get n :=
    fun n hn => (Heap.get_push ..).trans (if_neg hn)
  have hself : (t.pushShell c k).heap.get t.heap.size =
      { cls := c, oid := some k, state := .clean, hydrated := true } :=
    (Heap.get_push ..).trans (if_pos rfl)
  refine ⟨⟨_, _, rfl⟩, Nat.le_succ _, fun n hn _ => hget n (Nat.ne_of_lt hn), fun n hn => ?_,
    fun j n hj => ?_, fun j n hj hnone => ?_⟩
  · rw [hget n (Nat.ne_of_lt hn)]
    exact ⟨rfl, rfl⟩
  · have hne : j ≠ k := by
      rintro rfl
      rw [hj] at hreg
      cases hreg
    exact (Dict.get?_set_ne _ _ hne).trans hj
  · change (t.registry.set k t.heap.size).get? j = some n at hj
    rw [Dict.get?_set] at hj
    by_cases hjk : j = k
    · rw [if_pos hjk] at hj
      cases hj
      rw [hjk]
      refine ⟨rec, hrec, by rw [hself]; exact hcls, ?_⟩
      unfold Store.isProtected Store.info
      rw [hself]
      exact hopen
    · rw [if_neg hjk, hnone] at hj
      cases hj

/-- Following an eager reference. -/
theorem link_resolves (h : Loading s t) {k : Nat} {r : LiveRef}
    (hrun : link types false k t = .ok r u) :
    Loading s u ∧ Later types none t u ∧ RefResolved types u false (.ref k) r := by
  rw [link, bind_run_ok (get_run t)] at hrun
  -- The OID has an instance already: it is linked unless it is protected.
  cases hreg : t.registry.get? k with
  | some n =>
      simp only [hreg, Bool.not_false, Bool.true_and] at hrun
      cases hrun
      refine ⟨h, later_refl none t, ?_⟩
      cases hprot : t.isProtected types n with
      | true =>
          simp only [if_true]
          refine .unloaded k ?_
          unfold TargetProtected
          rw [hreg]
          exact hprot
      | false => exact .entity k n hreg hprot
  | none =>
      simp only [hreg] at hrun
      cases hrec : t.backend.objects.get? k with
      | none =>
          simp only [hrec] at hrun
          cases hrun
      -- It has none: a protected class is left unloaded, and of any other a shell is made.
      | some rec =>
          simp only [hrec] at hrun
          rcases bind_ok_iff.mp hrun with ⟨c, t₁, htype, hrun⟩
          rcases tiForCid_ok htype with ⟨rfl, hcls⟩
          cases hprot : (types.info c).isProtected with
          | true =>
              simp only [hprot, Bool.not_false, Bool.true_and, if_true] at hrun
              cases hrun
              refine ⟨h, later_refl none t, .unloaded k ?_⟩
              unfold TargetProtected
              rw [hreg]
              exact ⟨rec, c, hrec, hcls, hprot⟩
          | false =>
              simp only [hprot, Bool.not_false, Bool.true_and, Bool.false_eq_true, if_false,
                bind_run_ok (modify_run _ t)] at hrun
              cases hrun
              have hlater := later_pushShell hreg hrec hcls hprot
              refine ⟨h.pushShell hreg hrec hcls, hlater, .entity k _ (Dict.get?_set_self _ _ _) ?_⟩
              rcases hlater.opened k _ (Dict.get?_set_self _ _ _) hreg with ⟨_, _, _, hopen⟩
              exact hopen

theorem resolveToken_resolves (h : Loading s t) {lazyRefs : Bool}
    {k : Token} {r : LiveRef} (hrun : resolveToken types lazyRefs k t = .ok r u) :
    Loading s u ∧ Later types none t u ∧ RefResolved types u lazyRefs k r := by
  cases k with
  | blob oid content =>
      cases hrun
      exact ⟨h, later_refl none t, .blob lazyRefs oid content⟩
  | ref k =>
      cases lazyRefs with
      | false => exact link_resolves h hrun
      | true =>
          cases hrun
          refine ⟨h, later_refl none t, .handle k _ fun n hn => ?_⟩
          unfold loadedTarget at hn
          rw [Option.filter_eq_some_iff] at hn
          exact ⟨hn.1, by simpa using hn.2⟩

theorem resolve_resolves (h : Loading s t) (hs : RegistersObjects s) {lazyRefs : Bool}
    {w : Val Token} {r : Val LiveRef} (hrun : resolve types lazyRefs w t = .ok r u) :
    Loading s u ∧ Later types none t u ∧ Val.Rel (RefResolved types u lazyRefs) w r :=
  Val.mapLeaves_rel (I := Loading s) (L := Later types none)
    (R := fun t => RefResolved types t lazyRefs) (later_refl none)
    (fun _ _ _ hu hst htu => hst.trans htu (hu.registersObjects hs))
    (fun _ _ _ _ ht hlater hr => hr.later hlater (ht.registersObjects hs))
    (fun _ _ _ _ ht hrun => resolveToken_resolves ht hrun) w t r u h hrun

theorem get_assign (t : Store) (o : Nat) (name : String) (w : Val LiveRef) (n : Nat) :
    ((t.modifyEntity o fun e => e.assign name w).heap.get n) =
      if n = o then (t.heap.get o).assign name w else t.heap.get n := get_modifyEntity ..

/-- Writing a field of a shell. -/
theorem Loading.assign (h : Loading s t) {o : Nat} (ho : s.heap.size ≤ o) (name : String)
    (w : Val LiveRef) : Loading s (t.modifyEntity o fun e => e.assign name w) := by
  rcases h.frame with ⟨hp, r, hframe⟩
  have hlife : ∀ n, ((t.modifyEntity o fun e => e.assign name w).heap.get n).cls =
        (t.heap.get n).cls ∧
      ((t.modifyEntity o fun e => e.assign name w).heap.get n).oid = (t.heap.get n).oid := by
    intro n
    rw [get_assign]
    split
    · rename_i hn
      rw [hn]
      exact life_assign _ name w
    · exact ⟨rfl, rfl⟩
  refine ⟨⟨(t.modifyEntity o fun e => e.assign name w).heap, r, by rw [hframe]; rfl⟩, h.size,
    fun n hn => ?_, h.kept, fun k n hk => ?_, fun n hle hlt => ?_⟩
  · rw [get_assign, if_neg (by omega)]
    exact h.old n hn
  · exact (h.fresh k n hk).imp_right fun hn => ⟨hn.1, hn.2.1, (hlife n).2.trans hn.2.2⟩
  · rcases h.shells n hle hlt with ⟨k, rec, hoid, hreg, hfree, hrec, hcls⟩
    exact ⟨k, rec, (hlife n).2.trans hoid, hreg, hfree, hrec, by rw [(hlife n).1]; exact hcls⟩

theorem later_assign (t : Store) (o : Nat) (name : String) (w : Val LiveRef) :
    Later types (some o) t (t.modifyEntity o fun e => e.assign name w) := by
  refine ⟨⟨_, _, rfl⟩, le_rfl, fun n _ hno => ?_, fun n _ => ?_, fun _ _ hk => hk,
    fun k n hk hnone => ?_⟩
  · rw [get_assign, if_neg fun hc => hno (by rw [hc])]
  · rw [get_assign]
    split
    · rename_i hn
      rw [hn]
      exact life_assign _ name w
    · exact ⟨rfl, rfl⟩
  · change t.registry.get? k = some n at hk
    rw [hnone] at hk
    cases hk

/-- Filling one field of a shell. -/
theorem fillField_fills (h : Loading s t) (hs : RegistersObjects s) {o : Nat}
    {e : FieldSpec × Val Token} {x : Unit} (ho : s.heap.size ≤ o) (hlt : o < t.heap.size)
    (hrun : fillField types o e t = .ok x u) :
    Loading s u ∧ Later types (some o) t u ∧ FieldFilled types u o e ∧
      ∀ name, name ≠ e.1.name → (u.heap.get o).field name = (t.heap.get o).field name := by
  rcases bind_ok_iff.mp hrun with ⟨w, t₁, hres, hmod⟩
  rcases resolve_resolves h hs hres with ⟨h₁, hlater, hrel⟩
  cases hmod
  have hassign := @later_assign types t₁ o e.1.name w
  have hreg₁ := h₁.registersObjects hs
  refine ⟨h₁.assign ho e.1.name w, hlater.weaken.trans hassign hreg₁,
    ⟨w, Val.Rel.mono (fun _ _ hr => hr.later hassign hreg₁) _ _ hrel, ?_⟩, fun name hname => ?_⟩
  · rw [get_assign, if_pos rfl]
    exact field_assign_self _ _ _
  · rw [get_assign, if_pos rfl, field_assign_ne _ hname, hlater.same o hlt (by simp)]

/-- Filling the fields of a shell, one after the other. -/
theorem fillFields_fills (hs : RegistersObjects s) {o : Nat} (ho : s.heap.size ≤ o) :
    ∀ (plan : List (FieldSpec × Val Token)) {t u : Store} {x : PUnit},
      (plan.map fun e => e.1.name).Nodup → Loading s t → o < t.heap.size →
      plan.forM (fillField types o) t = .ok x u →
      Loading s u ∧ Later types (some o) t u ∧ (∀ e ∈ plan, FieldFilled types u o e) ∧
        ∀ name, (∀ e ∈ plan, name ≠ e.1.name) →
          (u.heap.get o).field name = (t.heap.get o).field name := by
  intro plan
  induction plan with
  | nil =>
      intro t u x _ h _ hrun
      cases hrun
      exact ⟨h, later_refl _ _, fun e he => absurd he List.not_mem_nil, fun _ _ => rfl⟩
  | cons e plan ih =>
      intro t u x hnodup h hlt hrun
      rw [List.map_cons, List.nodup_cons] at hnodup
      rw [forM_cons_run] at hrun
      rcases bind_ok_iff.mp hrun with ⟨_, t₁, hone, hrest⟩
      rcases fillField_fills h hs ho hlt hone with ⟨h₁, hlater, hfilled, hothers⟩
      have hlt₁ := Nat.lt_of_lt_of_le hlt hlater.size
      rcases ih hnodup.2 h₁ hlt₁ hrest with ⟨hu, hlater', hfields, hothers'⟩
      have hreg₁ := h₁.registersObjects hs
      refine ⟨hu, hlater.trans hlater' hreg₁, fun e' he' => ?_, fun name hname => ?_⟩
      · rcases List.mem_cons.mp he' with rfl | he'
        · -- the fields after it have other names
          refine hfilled.later hlater' hreg₁ (hothers' _ fun e'' he'' hname => hnodup.1 ?_)
          exact List.mem_map.mpr ⟨e'', he'', hname.symm⟩
        · exact hfields e' he'
      · rw [hothers' name fun e' he' => hname e' (List.mem_cons_of_mem e he')]
        exact hothers name (hname e List.mem_cons_self)

/-- The plan of a class names its fields. -/
theorem hydrationPlan_names {ti : TypeInfo} {persisted : List String} {payload : List (Val Token)}
    {plan : List (FieldSpec × Val Token)} (h : hydrationPlan ti persisted payload = .ok plan) :
    plan.map (fun e => e.1.name) = ti.fieldNames := by
  have hfst : plan.map Prod.fst = ti.specs := by
    refine (except_mapM_map (g := id) (fun spec e he => ?_) h).trans (List.map_id _)
    cases hv : hydrationValue ti persisted payload spec.name with
    | error err =>
        rw [hv] at he
        cases he
    | ok v =>
        rw [hv] at he
        cases he
        rfl
  unfold TypeInfo.fieldNames
  rw [← hfst, List.map_map]
  rfl

/-- Filling a shell. -/
theorem fillEntity_fills (h : Loading s t) (hs : RegistersObjects s) {o : Nat} {x : Unit}
    (ho : s.heap.size ≤ o) (hlt : o < t.heap.size) (hrun : fillEntity types o t = .ok x u) :
    Loading s u ∧ Later types (some o) t u ∧ Filled types s u o := by
  rcases h.shells o ho hlt with ⟨k, rec, hoid, hreg, hfree, hrec, hcls⟩
  have hframe : t.backend = s.backend ∧ t.typeRows = s.typeRows := by
    rcases h.frame with ⟨hp, r, rfl⟩
    exact ⟨rfl, rfl⟩
  have hbind : (t.heap.get o).oid.bind t.backend.objects.get? = some rec := by
    rw [hoid, hframe.1]
    exact hrec
  have hpersisted : t.persistedFields rec.cid = s.persistedFields rec.cid := by
    unfold persistedFields
    rw [hframe.2]
  rw [fillEntity, bind_run_ok (get_run t), hbind] at hrun
  dsimp only at hrun
  rcases bind_ok_iff.mp hrun with ⟨plan, t₁, hplan, hchecked⟩
  rcases ofExcept_ok_iff.mp hplan with ⟨hplan, rfl⟩
  rcases bind_ok_iff.mp hchecked with ⟨_, t₂, hlen, hfill⟩
  rcases raiseIf_ok_iff.mp hlen with ⟨hlen, rfl⟩
  rw [hpersisted] at hplan hlen
  have hnodup : (plan.map fun e => e.1.name).Nodup := by
    rw [hydrationPlan_names hplan]
    exact TypeInfo.fieldNames_nodup _
  rcases fillFields_fills hs ho plan hnodup h hlt hfill with ⟨hu, hlater, hfields, -⟩
  refine ⟨hu, hlater, k, rec, plan, (hlater.life o hlt).2.trans hoid, ?_, hfields⟩
  rw [(hlater.life o hlt).1]
  exact ⟨hrec, hcls, hplan, by simpa using hlen⟩

/-- A load makes no more shells than there are records. -/
theorem Loading.count (h : Loading s t) :
    t.heap.size ≤ s.heap.size + s.backend.objects.entries.length := by
  let ks := (List.range' s.heap.size (t.heap.size - s.heap.size)).map fun n =>
    ((t.heap.get n).oid.getD 0)
  have hshell : ∀ n ∈ List.range' s.heap.size (t.heap.size - s.heap.size), IsShell s t n := by
    intro n hn
    rw [List.mem_range'_1] at hn
    exact h.shells n hn.1 (by omega)
  have hnodup : ks.Nodup := by
    refine List.Nodup.map_on (fun n hn m hm hnm => ?_) List.nodup_range'
    rcases hshell n hn with ⟨k, _, hoid, hreg, _⟩
    rcases hshell m hm with ⟨j, _, hoid', hreg', _⟩
    rw [hoid, hoid', Option.getD_some, Option.getD_some] at hnm
    rw [← hnm, hreg] at hreg'
    exact Option.some.inj hreg'
  have hsub : ks ⊆ s.backend.objects.keys := by
    intro k hk
    rcases List.mem_map.mp hk with ⟨n, hn, rfl⟩
    rcases hshell n hn with ⟨j, rec, hoid, _, _, hrec, _⟩
    rw [hoid, Option.getD_some]
    exact (Dict.mem_keys_iff _ _).mpr ⟨rec, hrec⟩
  have hlen := (hnodup.subperm hsub).length_le
  have hks : ks.length = t.heap.size - s.heap.size := by simp [ks]
  have hkeys : s.backend.objects.keys.length = s.backend.objects.entries.length := by
    simp [Dict.keys]
  have hsize := h.size
  omega

/-- Filling the shells in the queue, those made on the way included, until none is
    left. -/
theorem fillShells_fills (hs : RegistersObjects s) (fuel : Nat) : ∀ {t u : Store} (o : Nat)
    {x : Unit}, Loading s t → s.heap.size ≤ o → o ≤ t.heap.size →
    (∀ n, s.heap.size ≤ n → n < o → Filled types s t n) →
    o + fuel = s.heap.size + s.backend.objects.entries.length + 1 →
    fillShells types fuel o t = .ok x u →
    Loading s u ∧ ∀ n, s.heap.size ≤ n → n < u.heap.size → Filled types s u n := by
  induction fuel with
  | zero =>
      intro t u o x h ho hle hfilled hfuel hrun
      have hcount := h.count
      omega
  | succ fuel ih =>
      intro t u o x h ho hle hfilled hfuel hrun
      rw [fillShells, bind_run_ok (get_run t)] at hrun
      by_cases hlt : o < t.heap.size
      · rw [if_pos hlt] at hrun
        rcases bind_ok_iff.mp hrun with ⟨_, t₁, hone, hrest⟩
        rcases fillEntity_fills h hs ho hlt hone with ⟨h₁, hlater, hfill⟩
        refine ih (o + 1) h₁ (by omega) (Nat.lt_of_lt_of_le hlt hlater.size) (fun n hn hno => ?_)
          (by omega) hrest
        by_cases heq : n = o
        · rw [heq]
          exact hfill
        · -- the shells before it were filled and are left alone
          exact (hfilled n hn (by omega)).later hlater (h.registersObjects hs) (by omega)
            fun hc => heq (Option.some.inj hc)
      · rw [if_neg hlt] at hrun
        cases hrun
        exact ⟨h, fun n hn hno => hfilled n hn (by omega)⟩

end Steps

/-- The OIDs the eager fields of a record refer to. -/
def eagerRefs (types : Types) (s : Store) (k : Nat) : List Nat :=
  match s.backend.objects.get? k with
  | none => []
  | some rec =>
    match s.typenameByCid rec.cid with
    | none => []
    | some c =>
      match hydrationPlan (types.info c) (s.persistedFields rec.cid) rec.payload with
      | .error _ => []
      | .ok plan => plan.flatMap fun e =>
        if e.1.lazyRefs then []
        else e.2.leaves.filterMap fun t =>
          match t with
          | .ref k' => some k'
          | .blob _ _ => none

theorem mem_eagerRefs {k k' : Nat} (h : k' ∈ s.eagerRefs types k) :
    ∃ rec c plan, s.backend.objects.get? k = some rec ∧ s.typenameByCid rec.cid = some c ∧
      hydrationPlan (types.info c) (s.persistedFields rec.cid) rec.payload = .ok plan ∧
      ∃ e ∈ plan, e.1.lazyRefs = false ∧ .ref k' ∈ e.2.leaves := by
  unfold eagerRefs at h
  cases hrec : s.backend.objects.get? k with
  | none => simp [hrec] at h
  | some rec =>
      cases hcls : s.typenameByCid rec.cid with
      | none => simp [hrec, hcls] at h
      | some c =>
          cases hplan : hydrationPlan (types.info c) (s.persistedFields rec.cid) rec.payload with
          | error e => simp [hrec, hcls, hplan] at h
          | ok plan =>
              simp only [hrec, hcls, hplan, List.mem_flatMap] at h
              rcases h with ⟨e, he, hmem⟩
              refine ⟨rec, c, plan, rfl, hcls, hplan, e, he, ?_⟩
              cases hlazy : e.1.lazyRefs with
              | true => simp [hlazy] at hmem
              | false =>
                  simp only [hlazy, Bool.false_eq_true, if_false, List.mem_filterMap] at hmem
                  rcases hmem with ⟨t, ht, hsome⟩
                  cases t with
                  | ref j =>
                      cases hsome
                      exact ⟨rfl, ht⟩
                  | blob _ _ => cases hsome

/-- The OIDs a load follows eager references to: from an OID that was free, and whose
    record is open unless it is the one that was asked for. -/
inductive EagerlyReached (types : Types) (s : Store) (oid : Nat) : Nat → Prop
  | root : EagerlyReached types s oid oid
  | step {k k' : Nat} (h : EagerlyReached types s oid k) (hfree : s.registry.get? k = none)
      (hopen : k = oid ∨ ¬TargetProtected types s k) (href : k' ∈ s.eagerRefs types k) :
      EagerlyReached types s oid k'

section Whole

theorem pushShell_root {oid : Nat} {r : LiveRef} (hfree : s.registry.get? oid = none)
    (hrun : link types true oid s = .ok r t) :
    Loading s t ∧ t.registry.get? oid = some s.heap.size := by
  refine ⟨?_, link_registered hfree hrun⟩
  rw [link, bind_run_ok (get_run s)] at hrun
  simp only [hfree] at hrun
  cases hrec : s.backend.objects.get? oid with
  | none =>
      simp only [hrec] at hrun
      cases hrun
  | some rec =>
      simp only [hrec] at hrun
      rcases bind_ok_iff.mp hrun with ⟨c, t₁, htype, hpush⟩
      rcases tiForCid_ok htype with ⟨rfl, hcls⟩
      simp only [Bool.not_true, Bool.false_and, Bool.false_eq_true, if_false,
        bind_run_ok (modify_run _ s)] at hpush
      cases hpush
      exact (loading_refl s).pushShell hfree hrec hcls

/-- A load that returns has filled every shell it made. -/
theorem loadOid_fills (hs : RegistersObjects s) {oid o : Nat} (h : loadOid types oid s = .ok o t) :
    Loading s t ∧ t.registry.get? oid = some o ∧
      ∀ n, s.heap.size ≤ n → n < t.heap.size → Filled types s t n := by
  have hregistered := loadOid_registered h
  rw [loadOid, bind_run_ok (get_run s)] at h
  cases hreg : s.registry.get? oid with
  | some n =>
      simp only [hreg] at h
      cases h
      exact ⟨loading_refl s, hregistered, fun n hle hlt => absurd hlt (by omega)⟩
  | none =>
      simp only [hreg] at h
      rw [materializeGraph, bind_run_ok (get_run s)] at h
      rcases bind_ok_iff.mp h with ⟨r, t₁, hattempt, hrest⟩
      cases r with
      | error e =>
          rcases bind_ok_iff.mp hrest with ⟨_, _, _, hthrow⟩
          cases hthrow
      | ok x =>
          cases hrest
          rcases bind_ok_iff.mp (attempt_ok hattempt) with ⟨_, t₀, hlink, hfill⟩
          rcases pushShell_root hreg hlink with ⟨h₀, -⟩
          rcases fillShells_fills hs _ s.heap.size h₀ le_rfl h₀.size
            (fun n hle hlt => absurd hlt (by omega)) (by omega) hfill with ⟨ht, hfilled⟩
          exact ⟨ht, hregistered, hfilled⟩

/-- What eager references lead to is registered, or protected. -/
theorem Loading.reached (h : Loading s t) {oid o k : Nat} (hroot : t.registry.get? oid = some o)
    (hfilled : ∀ n, s.heap.size ≤ n → n < t.heap.size → Filled types s t n)
    (hk : EagerlyReached types s oid k) :
    (∃ n, t.registry.get? k = some n) ∨ TargetProtected types t k := by
  induction hk with
  | root => exact Or.inl ⟨o, hroot⟩
  | @step k k' _ hfree hopen href ih =>
      have hreg : ∃ n, t.registry.get? k = some n := by
        rcases ih with hreg | hprot
        · exact hreg
        · cases hreg : t.registry.get? k with
          | some n => exact ⟨n, rfl⟩
          | none =>
              -- A protected record was protected before.
              rcases hopen with rfl | hopen
              · rw [hroot] at hreg
                cases hreg
              · refine absurd ?_ hopen
                unfold TargetProtected at hprot ⊢
                rw [hreg] at hprot
                rw [hfree]
                rcases h.frame with ⟨hp, r, hframe⟩
                rw [hframe] at hprot
                exact hprot
      rcases hreg with ⟨n, hn⟩
      rcases h.fresh k n hn with hold | ⟨hle, hlt, hoid⟩
      · rw [hfree] at hold
        cases hold
      · rcases hfilled n hle hlt with ⟨k₂, rec', plan', hoid', hplan', hfields⟩
        have hkk : k₂ = k := Option.some.inj (hoid'.symm.trans hoid)
        rw [hkk] at hplan'
        rcases mem_eagerRefs href with ⟨rec, c, plan, hrec, hcls, hmade, e, he, heager, hleaf⟩
        rcases hplan' with ⟨hrec', hcls', hmade', -⟩
        rw [hrec] at hrec'
        cases hrec'
        rw [hcls] at hcls'
        have hc : c = (t.heap.get n).cls := Option.some.inj hcls'
        rw [← hc, hmade] at hmade'
        cases hmade'
        rcases hfields e he with ⟨w, hrel, -⟩
        rcases Val.Rel.exists_right _ _ hrel _ hleaf with ⟨r, hr⟩
        rw [heager] at hr
        cases hr with
        | entity _ n' hreg' hopen' => exact Or.inl ⟨n', hreg'⟩
        | unloaded _ hprot => exact Or.inr hprot

/-- Taking a shell out of the registry. -/
theorem get?_unregister (t : Store) (o k : Nat) : (t.unregister o).registry.get? k =
    if (t.heap.get o).oid = some k then none else t.registry.get? k := by
  unfold unregister
  cases hoid : (t.heap.get o).oid with
  | none => simp
  | some j =>
      dsimp only
      rw [Dict.get?_erase]
      by_cases hkj : k = j
      · simp [hkj]
      · rw [if_neg hkj, if_neg fun hc => hkj (Option.some.inj hc).symm]

theorem heap_unregister (t : Store) (o : Nat) : (t.unregister o).heap = t.heap := by
  unfold unregister
  cases (t.heap.get o).oid <;> rfl

theorem get?_unregistered (k : Nat) : ∀ (os : List Nat) (t : Store),
    (os.foldl unregister t).registry.get? k =
      if ∃ o ∈ os, (t.heap.get o).oid = some k then none else t.registry.get? k := by
  intro os
  induction os with
  | nil => exact fun t => by simp
  | cons o os ih =>
      intro t
      rw [List.foldl_cons, ih, heap_unregister, get?_unregister]
      by_cases ho : (t.heap.get o).oid = some k
      · simp [ho]
      · simp [ho]

/-- A load that raises leaves the registry as it was. -/
theorem loadOid_restores {oid : Nat} {e : Err} (h : loadOid types oid s = .error e t) (k : Nat) :
    t.registry.get? k = s.registry.get? k := by
  rw [loadOid, bind_run_ok (get_run s)] at h
  cases hreg : s.registry.get? oid with
  | some n =>
      simp only [hreg] at h
      cases h
  | none =>
      simp only [hreg] at h
      rw [materializeGraph, bind_run_ok (get_run s), bind_run] at h
      have hfills := @moves_shells types oid (s.backend.objects.entries.length + 1) s.heap.size s
      rw [attempt] at h
      cases hrun : (do
          let _ ← link types true oid
          fillShells types (s.backend.objects.entries.length + 1) s.heap.size : M Unit) s with
      -- A load that returned has raised nothing; one that raised has taken its shells out again.
      | ok x u =>
          simp only [hrun] at h
          cases h
      | error e' u =>
          simp only [hrun] at h
          cases h
          have hu := loaded_of_fills (hfills.of_error hrun)
          change (u.unregisterFrom s.heap.size).registry.get? k = _
          unfold unregisterFrom
          rw [get?_unregistered]
          have hsize := hu.size
          by_cases hshell : ∃ o ∈ List.range' s.heap.size (u.heap.size - s.heap.size),
              (u.heap.get o).oid = some k
          · -- the shell stood under an OID that was free
            rw [if_pos hshell]
            rcases hshell with ⟨o, ho, hoid⟩
            rw [List.mem_range'_1] at ho
            rcases hu.shells o ho.1 (by omega) with ⟨-, j, hj, hfree⟩
            rw [hoid] at hj
            cases hj
            exact hfree.symm
          -- A name that no shell of this load has was there before.
          · rw [if_neg hshell]
            cases hk : u.registry.get? k with
            | some n =>
                rcases hu.fresh k n hk with hold | ⟨hle, hlt, hoid⟩
                · exact hold.symm
                · refine absurd ⟨n, ?_, hoid⟩ hshell
                  rw [List.mem_range'_1]
                  exact ⟨hle, by omega⟩
            | none =>
                cases hk' : s.registry.get? k with
                | none => rfl
                | some n =>
                    rw [hu.kept k n hk'] at hk
                    cases hk

end Whole

end Store

open Store

/-- A load ends. One that returns has registered one instance for each OID that eager
    references led to, and filled those it made from their records; one that raises
    leaves the registry as it was. -/
theorem materialize_graph {s : Store} (hs : RegistersObjects s) (types : Types) (oid : Nat) :
    match loadOid types oid s with
    | .ok o t =>
      t.registry.get? oid = some o ∧ Loading s t ∧
        t.heap.size ≤ s.heap.size + s.backend.objects.entries.length ∧
        (∀ k, EagerlyReached types s oid k →
          (∃ n, t.registry.get? k = some n) ∨ TargetProtected types t k) ∧
        ∀ n, s.heap.size ≤ n → n < t.heap.size → Filled types s t n
    | .error _ t => ∀ k, t.registry.get? k = s.registry.get? k := by
  cases hload : loadOid types oid s with
  | ok o t =>
      rcases loadOid_fills hs hload with ⟨ht, hroot, hfilled⟩
      exact ⟨hroot, ht, ht.count, fun k hk => ht.reached hroot hfilled hk, hfilled⟩
  | error e t => exact loadOid_restores hload

/-- Three folders, one in the other. -/
def nestedFolders : List Event :=
  [.act noteOwner (.construct "folder" [("title", .scalar (.str "c"))]),
    .act noteOwner (.construct "folder"
      [("title", .scalar (.str "b")), ("inside", .leaf (.entity 0))]),
    .act noteOwner (.construct "folder"
      [("title", .scalar (.str "a")), ("inside", .leaf (.entity 1))]),
    .act noteOwner (.store 2), .act noteOwner (.commit false)]

/-- Opened again, the folders are loaded with the outermost. -/
theorem materialize_graph_on_folders :
    let s := ((World.start folderTypes).run (nestedFolders ++ [.crashAndOpen folderTypes])).store
    ∃ o t, loadOid folderTypes oidBase s = .ok o t ∧ t.registry.get? oidBase = some o ∧
      (∃ n, t.registry.get? (oidBase + 2) = some n) ∧
      ∀ n, s.heap.size ≤ n → n < t.heap.size → Filled folderTypes s t n := by
  intro s
  -- After the crash nothing is registered.
  have hempty : s.registry.entries = [] := by decide +kernel
  have hfree : ∀ k, s.registry.get? k = none := by
    intro k
    cases hk : s.registry.get? k with
    | none => rfl
    | some n =>
        have hmem := (Dict.get?_eq_some_iff _ _ _).mp hk
        rw [hempty] at hmem
        exact absurd hmem List.not_mem_nil
  have hs : RegistersObjects s := fun k n hk => by
    rw [hfree] at hk
    cases hk
  have hgraph := materialize_graph hs folderTypes oidBase
  have hrefs : oidBase + 1 ∈ s.eagerRefs folderTypes oidBase ∧
      oidBase + 2 ∈ s.eagerRefs folderTypes (oidBase + 1) := by decide +kernel
  have hopen : ∀ k ∈ [oidBase + 1, oidBase + 2], (s.backend.objects.get? k).map (fun rec =>
      (s.typenameByCid rec.cid).map fun c => (folderTypes.info c).isProtected) =
        some (some false) := by decide +kernel
  have hreach : EagerlyReached folderTypes s oidBase (oidBase + 2) := by
    refine .step (.step .root (hfree _) (Or.inl rfl) hrefs.1) (hfree _) (Or.inr fun hprot => ?_)
      hrefs.2
    unfold TargetProtected at hprot
    rw [hfree] at hprot
    rcases hprot with ⟨rec, c, hrec, hcls, hc⟩
    have hone := hopen (oidBase + 1) (by simp)
    rw [hrec, Option.map_some, hcls] at hone
    simp only [Option.map_some, Option.some.injEq] at hone
    rw [hone] at hc
    cases hc
  have hok : (match loadOid folderTypes oidBase s with
    | .ok _ t => (t.registry.get? (oidBase + 2)).isSome
    | .error _ _ => false) = true := by decide +kernel
  cases hload : loadOid folderTypes oidBase s with
  | error e t =>
      rw [hload] at hok
      cases hok
  | ok o t =>
      rw [hload] at hgraph hok
      rcases hgraph with ⟨hroot, ht, hcount, hreached, hfilled⟩
      refine ⟨o, t, rfl, hroot, ?_, hfilled⟩
      rcases hreached _ hreach with hreg | hprot
      · exact hreg
      · exact Option.isSome_iff_exists.mp hok

/-- The folder in the middle was emptied and is still there; the other two instances
    are gone. -/
def emptiedFolder : List Event :=
  nestedFolders ++ [.act noteOwner (.setField 1 "inside" .none),
    .act noteOwner (.forget oidBase), .act noteOwner (.forget (oidBase + 2))]

/-- The outermost folder is loaded, and nothing is registered for the innermost, which
    the record of the middle one refers to. -/
theorem registered_not_followed :
    let s := ((World.start folderTypes).run emptiedFolder).store
    oidBase + 1 ∈ s.eagerRefs folderTypes oidBase ∧
      oidBase + 2 ∈ s.eagerRefs folderTypes (oidBase + 1) ∧
      ∃ o t, loadOid folderTypes oidBase s = .ok o t ∧ t.registry.get? (oidBase + 2) = none ∧
        (s.backend.objects.get? (oidBase + 2)).isSome = true ∧
        (folderTypes.info "folder").isProtected = false := by
  intro s
  have hrefs : oidBase + 1 ∈ s.eagerRefs folderTypes oidBase ∧
      oidBase + 2 ∈ s.eagerRefs folderTypes (oidBase + 1) ∧
      (s.backend.objects.get? (oidBase + 2)).isSome = true := by decide +kernel
  have hrun : (match loadOid folderTypes oidBase s with
    | .ok _ t => (t.registry.get? (oidBase + 2)).isNone
    | .error _ _ => false) = true := by decide +kernel
  cases hload : loadOid folderTypes oidBase s with
  | error e t =>
      rw [hload] at hrun
      cases hrun
  | ok o t =>
      rw [hload] at hrun
      exact ⟨hrefs.1, hrefs.2.1, o, t, rfl, Option.isNone_iff_eq_none.mp hrun, hrefs.2.2, by decide⟩

end DataCrystal
