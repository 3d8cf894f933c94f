import DataCrystal.Containers

/-!
# Mutation Tracking

Every list and every dictionary that can be reached from a field of an entity,
through lists, dictionaries and tuples, belongs to that entity. This is kept by
every event, and it is what the tracking rests on: a mutator looks at the owner of
the one container it is called on and at nothing else. Loading a record is the one
event with a condition: a default that is a tuple is not looked into there, so it
must hold no list.

The argument is in two parts. A wrap only adds containers, and each of them belongs
to the owner it was made for (`Grown`). An event as a whole keeps the invariant, and
it leaves an entity that is clean behind it as it found it, unless it is the event
that made it clean (`Edits`).

## Main definitions

* `Value.Holds`: A value holds a container, directly or in its tuples.
* `Tight`: A value holds no container but those of its owner.
* `Within`: A container is reachable from a field of an entity.
* `Invariant`: The containers of each owner hold only containers of the same owner.
* `Grown`: Containers of one owner were added.
* `Same`: An entity reads the same in two states.
* `Edits`: What a program can do to the entities.
* `Reachable`: A state that a program can get to.
* `Reads`: An entity reads the same to any depth.

## Theorems

* `wrapValue_spec`: What wrapping makes belongs to the owner.
* `perform_spec`, `run_spec`: What an event does to the entities, and what a run does.
* `clean_unchanged`: A clean entity reads as it did when it was last settled.
* `mutate_tracked`: A mutator anywhere below a clean entity makes it dirty first.
* `frozen_unchanged`: A committed frozen entity reads the same forever.
* `containers_apart`: Two entities share no container.
-/

namespace DataCrystal.Containers

open State

variable {α κ : Type}

/-- The value is the container, or a tuple that holds it. A named tuple is not looked
    into, as it is passed through. -/
inductive Value.Holds : Value α → Nat → Prop
  | obj (n : Nat) : Value.Holds (.obj n) n
  | tuple {items : List (Value α)} {v : Value α} {n : Nat} (hv : v ∈ items) (h : v.Holds n) :
      Value.Holds (.tuple items) n

/-- A value holds no container but those of its owner. The containers in these
    containers are the business of the invariant on the cells. -/
def Tight (s : State α κ) (owner : Option Nat) (v : Value α) : Prop :=
  ∀ n, v.Holds n → s.boundOf n = some owner

/-- Every field of an entity is tight. -/
def FieldsTight (s : State α κ) (e : Nat) : Prop :=
  ∀ f v, s.field e f = some v → Tight s (some e) v

/-- A container is reachable from a field of an entity, through other containers and
    tuples, but not through another entity. -/
inductive Within (s : State α κ) (e : Nat) : Nat → Prop
  | field {f : String} {v : Value α} {n : Nat} (hf : s.field e f = some v) (h : v.Holds n) :
      Within s e n
  | cell {n m : Nat} {cell : Cell α κ} {v : Value α} (hn : Within s e n)
      (hcell : s.cells[n]? = some cell) (hv : v ∈ cell.body.values) (h : v.Holds m) :
      Within s e m

/-- The entity is not frozen, or it has been settled: then its containers are its own. -/
def Tracked (s : State α κ) (e : Nat) : Prop :=
  s.frozenOf e = false ∨ s.stateOf e = some .clean

structure Invariant (s : State α κ) : Prop where
  cells : ∀ (n : Nat) (cell : Cell α κ) owner, s.cells[n]? = some cell → cell.bound = some owner →
    ∀ v ∈ cell.body.values, Tight s owner v
  fields : ∀ e, Tracked s e → FieldsTight s e

/-- The containers of an entity and its fields read the same. Containers of other
    owners may have been added or changed. -/
structure Same (e : Nat) (s t : State α κ) : Prop where
  fields : ∀ f, t.field e f = s.field e f
  cells : ∀ (n : Nat) (cell : Cell α κ), s.cells[n]? = some cell → cell.bound = some (some e) →
    t.cells[n]? = some cell

/-- Nothing but containers was added. A wrap is of this kind: it copies, and leaves
    what it was given alone. -/
structure Extends (s t : State α κ) : Prop where
  entities : t.entities = s.entities
  dirty : t.dirty = s.dirty
  closed : t.closed = s.closed
  cells : ∀ (n : Nat) (cell : Cell α κ), s.cells[n]? = some cell → t.cells[n]? = some cell
  invariant : Invariant s → Invariant t

/-- Containers of an owner were added, and each holds nothing but containers of the
    owner. What a wrap returns is among them, or was the owner's before. -/
structure Grown (owner : Option Nat) (s t : State α κ) : Prop where
  entities : t.entities = s.entities
  dirty : t.dirty = s.dirty
  closed : t.closed = s.closed
  cells : ∃ news : List (Cell α κ), t.cells = s.cells ++ news ∧ ∀ cell ∈ news,
    cell.bound = some owner ∧ ∀ v ∈ cell.body.values, Tight t owner v

/-- What a program can do to the entities: one outside `X` that is clean afterwards was
    clean before and reads the same, and so does a frozen one outside `Y` that was
    settled. -/
structure Edits (X Y : Nat → Prop) (s t : State α κ) : Prop where
  entities : s.entities.length ≤ t.entities.length
  frozen : ∀ e < s.entities.length, t.frozenOf e = s.frozenOf e
  bounds : ∀ n owner, s.boundOf n = some owner → t.boundOf n = some owner
  clean : ∀ e < s.entities.length, ¬ X e → t.stateOf e = some .clean →
    s.stateOf e = some .clean ∧ Same e s t
  sealed : ∀ e < s.entities.length, ¬ Y e → s.frozenOf e = true → FieldsTight s e → Same e s t

/-! ### Values and owners -/

@[simp]
theorem holds_atom {a : α} {n : Nat} : ¬ (Value.atom a).Holds n := fun h => nomatch h

@[simp]
theorem holds_named {items : List (Value α)} {n : Nat} : ¬ (Value.named items).Holds n :=
  fun h => nomatch h

@[simp]
theorem holds_obj {n m : Nat} : (Value.obj n : Value α).Holds m ↔ m = n := by
  constructor
  · intro h
    cases h
    rfl
  · rintro rfl
    exact .obj m

@[simp]
theorem holds_tuple {items : List (Value α)} {n : Nat} :
    (Value.tuple items).Holds n ↔ ∃ v ∈ items, v.Holds n := by
  constructor
  · intro h
    cases h with
    | tuple hv h => exact ⟨_, hv, h⟩
  · rintro ⟨v, hv, h⟩
    exact .tuple hv h

theorem tight_atom {s : State α κ} {owner : Option Nat} {a : α} : Tight s owner (.atom a) :=
  fun _ h => absurd h holds_atom

theorem tight_named {s : State α κ} {owner : Option Nat} {items : List (Value α)} :
    Tight s owner (.named items) :=
  fun _ h => absurd h holds_named

theorem tight_obj {s : State α κ} {owner : Option Nat} {n : Nat} :
    Tight s owner (.obj n) ↔ s.boundOf n = some owner := by
  constructor
  · exact fun h => h n (.obj n)
  · intro h m hm
    rw [holds_obj.mp hm]
    exact h

theorem tight_tuple {s : State α κ} {owner : Option Nat} {items : List (Value α)} :
    Tight s owner (.tuple items) ↔ ∀ v ∈ items, Tight s owner v := by
  constructor
  · exact fun h v hv n hn => h n (.tuple hv hn)
  · intro h n hn
    rcases holds_tuple.mp hn with ⟨v, hv, hn⟩
    exact h v hv n hn

/-- A value stays tight while the containers stay bound. -/
theorem Tight.mono {s t : State α κ} {owner : Option Nat} {v : Value α} (h : Tight s owner v)
    (hb : ∀ n owner, s.boundOf n = some owner → t.boundOf n = some owner) : Tight t owner v :=
  fun n hn => hb n owner (h n hn)

/-- A container that is still there is still bound. -/
theorem boundOf_mono {s t : State α κ} (h : ∀ (n : Nat) (cell : Cell α κ),
    s.cells[n]? = some cell → t.cells[n]? = some cell) (n : Nat) (owner : Option Nat)
    (hn : s.boundOf n = some owner) : t.boundOf n = some owner := by
  rw [State.boundOf, Option.bind_eq_some_iff] at hn ⊢
  rcases hn with ⟨cell, hcell, hbound⟩
  exact ⟨cell, h n cell hcell, hbound⟩

/-- Whatever is reachable from a tracked entity belongs to it. -/
theorem Invariant.within {s : State α κ} (hs : Invariant s) {e n : Nat} (he : Tracked s e)
    (h : Within s e n) : s.boundOf n = some (some e) := by
  induction h with
  | field hf hn => exact hs.fields e he _ _ hf _ hn
  | @cell n m cell v _ hcell hv hm ih =>
      have hbound : cell.bound = some (some e) := by
        rw [State.boundOf, hcell] at ih
        exact ih
      exact hs.cells n cell (some e) hcell hbound v hv m hm

/-! ### Relations between states -/

theorem Same.refl (e : Nat) (s : State α κ) : Same e s s := ⟨fun _ => rfl, fun _ _ h _ => h⟩

theorem Same.trans {e : Nat} {s t u : State α κ} (h : Same e s t) (h' : Same e t u) :
    Same e s u :=
  ⟨fun f => (h'.fields f).trans (h.fields f), fun n cell hn hb =>
    h'.cells n cell (h.cells n cell hn hb) hb⟩

theorem Edits.refl (X Y : Nat → Prop) (s : State α κ) : Edits X Y s s :=
  ⟨le_refl _, fun _ _ => rfl, fun _ _ h => h, fun e _ _ h => ⟨h, Same.refl e s⟩,
    fun e _ _ _ _ => Same.refl e s⟩

/-- The fields stay tight while they read the same. -/
theorem FieldsTight.mono {s t : State α κ} {e : Nat} (h : FieldsTight s e)
    (hfields : ∀ f, t.field e f = s.field e f)
    (hb : ∀ n owner, s.boundOf n = some owner → t.boundOf n = some owner) :
    FieldsTight t e :=
  fun f v hf => (h f v ((hfields f).symm.trans hf)).mono hb

theorem Edits.trans {X Y : Nat → Prop} {s t u : State α κ} (h : Edits X Y s t)
    (h' : Edits X Y t u) : Edits X Y s u := by
  refine ⟨h.entities.trans h'.entities, ?_, ?_, ?_, ?_⟩
  · intro e he
    exact (h'.frozen e (lt_of_lt_of_le he h.entities)).trans (h.frozen e he)
  · exact fun n owner hn => h'.bounds n owner (h.bounds n owner hn)
  · intro e he hX hu
    rcases h'.clean e (lt_of_lt_of_le he h.entities) hX hu with ⟨ht, htu⟩
    rcases h.clean e he hX ht with ⟨hs, hst⟩
    exact ⟨hs, hst.trans htu⟩
  · intro e he hY hfrozen hfields
    have hst := h.sealed e he hY hfrozen hfields
    have hfrozen' := (h.frozen e he).trans hfrozen
    exact hst.trans (h'.sealed e (lt_of_lt_of_le he h.entities) hY hfrozen'
      (hfields.mono hst.fields h.bounds))

/-- The entities that are exempt may be fewer where the rest reads the same anyway. -/
theorem Edits.narrow {X Y X' Y' : Nat → Prop} {s t : State α κ} (h : Edits X Y s t)
    (hX : ∀ e < s.entities.length, ¬ X' e → t.stateOf e = some .clean → X e →
      s.stateOf e = some .clean ∧ Same e s t)
    (hY : ∀ e < s.entities.length, ¬ Y' e → Y e → s.frozenOf e = true → FieldsTight s e →
      Same e s t) : Edits X' Y' s t := by
  refine ⟨h.entities, h.frozen, h.bounds, ?_, ?_⟩
  · intro e he hX' ht
    by_cases hXe : X e
    · exact hX e he hX' ht hXe
    · exact h.clean e he hXe ht
  · intro e he hY' hfrozen hfields
    by_cases hYe : Y e
    · exact hY e he hY' hYe hfrozen hfields
    · exact h.sealed e he hYe hfrozen hfields

theorem Extends.refl (s : State α κ) : Extends s s :=
  ⟨rfl, rfl, rfl, fun _ _ h => h, id⟩

theorem Extends.trans (s t u : State α κ) (h : Extends s t) (h' : Extends t u) : Extends s u :=
  ⟨h'.entities.trans h.entities, h'.dirty.trans h.dirty, h'.closed.trans h.closed,
    fun n cell hn => h'.cells n cell (h.cells n cell hn), fun hs => h'.invariant (h.invariant hs)⟩

theorem Extends.bounds {s t : State α κ} (h : Extends s t) (n : Nat) (owner : Option Nat)
    (hn : s.boundOf n = some owner) : t.boundOf n = some owner :=
  boundOf_mono h.cells n owner hn

theorem Extends.field {s t : State α κ} (h : Extends s t) (e : Nat) (f : String) :
    t.field e f = s.field e f := by
  rw [State.field, State.field, h.entities]

theorem Extends.stateOf {s t : State α κ} (h : Extends s t) (e : Nat) :
    t.stateOf e = s.stateOf e := by
  rw [State.stateOf, State.stateOf, h.entities]

theorem Extends.frozenOf {s t : State α κ} (h : Extends s t) (e : Nat) :
    t.frozenOf e = s.frozenOf e := by
  rw [State.frozenOf, State.frozenOf, h.entities]

/-- Adding containers edits nothing. -/
theorem Extends.edits {s t : State α κ} (h : Extends s t) (X Y : Nat → Prop) : Edits X Y s t := by
  have hsame : ∀ e, Same e s t := fun e => ⟨h.field e, fun n cell hn _ => h.cells n cell hn⟩
  refine ⟨(congrArg List.length h.entities).ge, fun e _ => h.frozenOf e, h.bounds, ?_, ?_⟩
  · intro e _ _ ht
    exact ⟨(h.stateOf e).symm.trans ht, hsame e⟩
  · exact fun e _ _ _ _ => hsame e

theorem Grown.refl (owner : Option Nat) (s : State α κ) : Grown owner s s :=
  ⟨rfl, rfl, rfl, [], (List.append_nil _).symm, fun _ h => absurd h List.not_mem_nil⟩

theorem Grown.extends {owner : Option Nat} {s t : State α κ} (h : Grown owner s t) :
    Extends s t := by
  rcases h.cells with ⟨news, heq, hnews⟩
  have hcells : ∀ (n : Nat) (cell : Cell α κ), s.cells[n]? = some cell →
      t.cells[n]? = some cell := by
    intro n cell hn
    rw [heq, List.getElem?_append_left (List.getElem?_eq_some_iff.mp hn).1]
    exact hn
  have hbounds := boundOf_mono hcells
  refine ⟨h.entities, h.dirty, h.closed, hcells, fun hs => ⟨?_, ?_⟩⟩
  · intro n cell owner' hn hbound v hv
    rw [heq] at hn
    by_cases hlt : n < s.cells.length
    · rw [List.getElem?_append_left hlt] at hn
      exact (hs.cells n cell owner' hn hbound v hv).mono hbounds
    · rw [List.getElem?_append_right (not_lt.mp hlt)] at hn
      have hcell := hnews cell (List.mem_of_getElem? hn)
      cases hcell.1.symm.trans hbound
      exact hcell.2 v hv
  · intro e he
    rw [Tracked, State.frozenOf, State.stateOf, h.entities] at he
    refine (hs.fields e he).mono (fun f => ?_) hbounds
    rw [State.field, State.field, h.entities]

theorem Grown.trans (owner : Option Nat) (s t u : State α κ) (h : Grown owner s t)
    (h' : Grown owner t u) : Grown owner s u := by
  refine ⟨h'.entities.trans h.entities, h'.dirty.trans h.dirty, h'.closed.trans h.closed, ?_⟩
  rcases h.cells with ⟨news, ht, hnews⟩
  rcases h'.cells with ⟨news', hu, hnews'⟩
  refine ⟨news ++ news', by rw [hu, ht, List.append_assoc], ?_⟩
  intro cell hcell
  rcases List.mem_append.mp hcell with hcell | hcell
  · refine ⟨(hnews cell hcell).1, fun v hv => ?_⟩
    exact ((hnews cell hcell).2 v hv).mono h'.extends.bounds
  · exact hnews' cell hcell

theorem Tight.grown {owner : Option Nat} (v : Value α) (t u : State α κ) (h : Grown owner t u)
    (hv : Tight t owner v) : Tight u owner v :=
  hv.mono h.extends.bounds

/-! ### Wrapping -/

/-- What a record is decoded to: not a tuple that holds a container. A default or a
    glue may make such a tuple, and what it holds is not wrapped then. -/
def Decoded (v : Value α) : Prop := ∀ items, v = .tuple items → ∀ n, ¬ v.Holds n

section Wrapping

variable [DecidableEq κ] {R : State α κ → State α κ → Prop} {Q : Value α → State α κ → Prop}
  {wrap : Value α → M α κ (Value α)}

theorem mem_values_iff {d : Dict κ (Value α)} {v : Value α} :
    v ∈ d.values ↔ ∃ k, d.get? k = some v := by
  constructor
  · intro h
    rcases List.mem_map.mp h with ⟨⟨k, w⟩, he, rfl⟩
    exact ⟨k, (d.get?_eq_some_iff k w).mpr he⟩
  · rintro ⟨k, h⟩
    exact List.mem_map_of_mem (f := Prod.snd) ((d.get?_eq_some_iff k v).mp h)

/-- The values of a body that is built of entries are values of the entries. -/
theorem mem_values_ofList {es : List (κ × Value α)} {v : Value α}
    (h : v ∈ (Dict.ofList es).values) : ∃ e ∈ es, e.2 = v := by
  rcases mem_values_iff.mp h with ⟨k, hk⟩
  exact ⟨(k, v), Dict.mem_of_get?_ofList hk, rfl⟩

variable (hrefl : ∀ s, R s s) (htrans : ∀ s t u, R s t → R t u → R s u)
  (hmono : ∀ v t u, R t u → Q v t → Q v u)

include hrefl htrans hmono

omit [DecidableEq κ] in
theorem framed_wrapEntries (es : List (κ × Value α))
    (hwrap : ∀ e ∈ es, ∀ s, Framed R (wrap e.2) s Q) :
    ∀ s, Framed R (wrapEntries wrap es) s fun es' t => ∀ e ∈ es', Q e.2 t := by
  induction es with
  | nil => exact fun s => framed_pure hrefl fun e he => absurd he List.not_mem_nil
  | cons e es ih =>
      intro s
      have htail := ih fun e' he' => hwrap e' (List.mem_cons_of_mem e he')
      rw [wrapEntries]
      refine framed_bind htrans (hwrap e List.mem_cons_self s) fun v t _ hv => ?_
      refine framed_bind htrans (htail t) fun rest u htu hrest => ?_
      refine framed_pure hrefl fun e' he' => ?_
      rcases List.mem_cons.mp he' with rfl | he'
      · exact hmono v t u htu hv
      · exact hrest e' he'

theorem framed_wrapBody (body : Body α κ) (hwrap : ∀ v s, Framed R (wrap v) s Q)
    (s : State α κ) : Framed R (wrapBody wrap body) s fun body' t => ∀ v ∈ body'.values, Q v t := by
  cases body with
  | list items =>
      rw [wrapBody]
      refine framed_bind htrans (framed_mapM htrans hrefl hmono items (fun v _ => hwrap v) s) ?_
      exact fun items' t _ hitems => framed_pure hrefl hitems
  | dict entries =>
      rw [wrapBody]
      refine framed_bind htrans
        (framed_wrapEntries hrefl htrans hmono entries.entries (fun e _ => hwrap e.2) s) ?_
      intro es t _ hes
      refine framed_pure hrefl fun v hv => ?_
      rcases mem_values_ofList hv with ⟨e, he, rfl⟩
      exact hes e he

end Wrapping

section Owned

variable [DecidableEq κ] {owner : Option Nat}

omit [DecidableEq κ] in
/-- A new container of the owner, filled with what is tight. -/
theorem alloc_spec {s : State α κ} {body : Body α κ} (h : ∀ v ∈ body.values, Tight s owner v) :
    Framed (Grown owner) (alloc ⟨some owner, body⟩) s fun v t => Tight t owner v := by
  have hgrown : Grown owner s { s with cells := s.cells ++ [⟨some owner, body⟩] } := by
    refine ⟨rfl, rfl, rfl, [⟨some owner, body⟩], rfl, ?_⟩
    intro cell hcell
    rw [List.mem_singleton.mp hcell]
    refine ⟨rfl, fun v hv n hn => boundOf_mono (fun m cell' hm => ?_) n owner (h v hv n hn)⟩
    exact (List.getElem?_append_left (List.getElem?_eq_some_iff.mp hm).1).trans hm
  refine framed_get_bind (framed_bind (Grown.trans owner) (P := fun _ t =>
    t = { s with cells := s.cells ++ [⟨some owner, body⟩] }) (framed_set hgrown rfl) ?_)
  rintro _ t _ rfl
  refine framed_pure (Grown.refl owner) (tight_obj.mpr ?_)
  rw [State.boundOf, List.getElem?_concat_length]
  rfl

/-- What wrapping makes belongs to the owner. -/
theorem wrapValue_spec (depth : Nat) : ∀ (v : Value α) (s : State α κ),
    Framed (Grown owner) (wrapValue owner depth v) s fun w t => Tight t owner w := by
  induction depth with
  | zero => exact fun v s => framed_throw (Grown.refl owner)
  | succ depth ih =>
      intro v s
      have htrans := Grown.trans (α := α) (κ := κ) owner
      cases v with
      | atom a => exact framed_pure (Grown.refl owner) tight_atom
      | named items => exact framed_pure (Grown.refl owner) tight_named
      | tuple items =>
          refine framed_bind htrans (framed_mapM htrans (Grown.refl owner) Tight.grown items
            (fun v _ => ih v) s) fun items' t _ hitems => ?_
          exact framed_pure (Grown.refl owner) (tight_tuple.mpr hitems)
      | obj n =>
          refine framed_get_bind ?_
          cases hn : s.cells[n]? with
          | none => exact framed_throw (Grown.refl owner)
          | some cell =>
              by_cases hbound : cell.bound = some owner
              · simp only [hbound, if_true]
                refine framed_pure (Grown.refl owner) (tight_obj.mpr ?_)
                rw [State.boundOf, hn]
                exact hbound
              · simp only [hbound, if_false]
                exact framed_bind htrans (framed_wrapBody (Grown.refl owner) htrans Tight.grown
                  cell.body ih s) fun body t _ hbody => alloc_spec hbody

/-- A list or a dictionary of a record becomes a container of the owner. A tuple at the top
    is not looked into; inside a container it is wrapped like anything else. -/
theorem resolve_spec (e depth : Nat) : ∀ (v : Value α) (s : State α κ),
    Framed (Grown (some e)) (resolve e depth v) s fun w t => Decoded v → Tight t (some e) w := by
  have hrefl := Grown.refl (α := α) (κ := κ) (some e)
  have htrans := Grown.trans (α := α) (κ := κ) (some e)
  have hplain : ∀ (v : Value α) (s : State α κ), (∀ n, v ≠ .obj n) → Decoded v →
      Tight s (some e) v := by
    intro v s hobj hv
    cases v with
    | atom a => exact tight_atom
    | named items => exact tight_named
    | tuple items => exact fun n hn => absurd hn (hv items rfl n)
    | obj n => exact absurd rfl (hobj n)
  induction depth with
  | zero => exact fun v s => framed_throw hrefl
  | succ depth ih =>
      intro v s
      cases v with
      | atom a => exact framed_pure hrefl (hplain _ _ (fun _ h => nomatch h))
      | named items => exact framed_pure hrefl (hplain _ _ (fun _ h => nomatch h))
      | tuple items => exact framed_pure hrefl (hplain _ _ (fun _ h => nomatch h))
      | obj n =>
          refine framed_get_bind ?_
          cases s.cells[n]? with
          | none => exact framed_throw hrefl
          | some cell =>
              refine framed_bind htrans (framed_wrapBody hrefl htrans Tight.grown cell.body
                (fun v s => ?_) s) fun body t _ hbody => ?_
              · exact framed_bind htrans (ih v s) fun w t _ _ => wrapValue_spec depth w t
              · exact (alloc_spec hbody).imp fun w u _ hw _ => hw

/-- A value that belongs to the owner passes through. -/
theorem wrapValue_tight (depth : Nat) : ∀ (v : Value α) (s : State α κ), Tight s owner v →
    Framed Eq (wrapValue owner depth v) s fun w _ => w = v := by
  induction depth with
  | zero => exact fun v s _ => framed_throw fun _ => rfl
  | succ depth ih =>
      intro v s hv
      cases v with
      | atom a => exact framed_pure (fun _ => rfl) rfl
      | named items => exact framed_pure (fun _ => rfl) rfl
      | tuple items =>
          have hloop := framed_mapM_self items fun w hw => ih w s (tight_tuple.mp hv w hw)
          refine framed_bind framed_eq_trans hloop fun ws t _ hws => ?_
          exact framed_pure (fun _ => rfl) (congrArg Value.tuple hws)
      | obj n =>
          refine framed_get_bind ?_
          have hbound := tight_obj.mp hv
          rw [State.boundOf, Option.bind_eq_some_iff] at hbound
          rcases hbound with ⟨cell, hn, hbound⟩
          simp only [hn, hbound, if_true]
          exact framed_pure (fun _ => rfl) rfl

end Owned

/-! ### One change -/

/-- The invariant is kept, and the entities are edited where they may be. -/
def Allowed (X Y : Nat → Prop) (s t : State α κ) : Prop :=
  Invariant s → Invariant t ∧ Edits X Y s t

section Change

variable {X Y : Nat → Prop} {s t : State α κ}

theorem Allowed.refl (X Y : Nat → Prop) (s : State α κ) : Allowed X Y s s :=
  fun hs => ⟨hs, Edits.refl X Y s⟩

theorem Allowed.trans (X Y : Nat → Prop) (s t u : State α κ) (h : Allowed X Y s t)
    (h' : Allowed X Y t u) : Allowed X Y s u := by
  intro hs
  have hst := h hs
  have htu := h' hst.1
  exact ⟨htu.1, hst.2.trans htu.2⟩

theorem Extends.allowed (h : Extends s t) : Allowed X Y s t :=
  fun hs => ⟨h.invariant hs, h.edits X Y⟩

/-- The buffer and the closing of the store are not looked at. -/
theorem allowed_of_eq (hcells : t.cells = s.cells) (hent : t.entities = s.entities) :
    Allowed X Y s t := by
  obtain ⟨cells, entities, dirty, closed⟩ := t
  cases hcells
  cases hent
  have hsame : ∀ e, Same e s ⟨s.cells, s.entities, dirty, closed⟩ :=
    fun e => ⟨fun _ => rfl, fun _ _ h _ => h⟩
  exact fun hs => ⟨⟨hs.cells, hs.fields⟩, le_refl _, fun _ _ => rfl, fun _ _ h => h,
    fun e _ _ h => ⟨h, hsame e⟩, fun e _ _ _ _ => hsame e⟩

/-- A container takes new contents. Its owner is an entity that is neither clean nor
    frozen, or there is none. -/
theorem setBody_allowed {n : Nat} {cell : Cell α κ} {body : Body α κ}
    (hn : s.cells[n]? = some cell)
    (hopen : ∀ e, cell.bound = some (some e) → s.stateOf e ≠ some .clean ∧ s.frozenOf e = false)
    (hbody : ∀ owner, cell.bound = some owner →
      ∀ v ∈ body.values, Tight s owner v ∨ v ∈ cell.body.values) :
    Allowed X Y s (setBody n body s) := by
  -- One cell has another body; every bound, field and state is as before.
  have hself : (setBody n body s).cells[n]? = some { cell with body := body } := by
    rw [setBody, List.getElem?_modify_eq, hn]
    rfl
  have hne : ∀ m, m ≠ n → (setBody n body s).cells[m]? = s.cells[m]? :=
    fun m hm => List.getElem?_modify_ne _ _ (Ne.symm hm)
  have hbounds : ∀ m, (setBody n body s).boundOf m = s.boundOf m := by
    intro m
    rw [State.boundOf, State.boundOf]
    by_cases hm : m = n
    · rw [hm, hself, hn]
      rfl
    · rw [hne m hm]
  have hsame : ∀ e, cell.bound ≠ some (some e) → Same e s (setBody n body s) := by
    refine fun e he => ⟨fun _ => rfl, fun m cell' hm hbound => ?_⟩
    by_cases heq : m = n
    · rw [heq, hn] at hm
      cases hm
      exact absurd hbound he
    · rw [hne m heq]
      exact hm
  intro hs
  refine ⟨⟨?_, ?_⟩, le_refl _, fun _ _ => rfl, fun m owner hm => (hbounds m).trans hm, ?_, ?_⟩
  · intro m cell' owner hm hbound v hv
    have htight : Tight s owner v := by
      by_cases heq : m = n
      · rw [heq, hself] at hm
        cases hm
        exact (hbody owner hbound v hv).elim id fun hold => hs.cells n cell owner hn hbound v hold
      · rw [hne m heq] at hm
        exact hs.cells m cell' owner hm hbound v hv
    exact htight.mono fun k owner' hk => (hbounds k).trans hk
  · intro e he
    exact (hs.fields e he).mono (fun _ => rfl) fun k owner hk => (hbounds k).trans hk
  · intro e _ _ hclean
    exact ⟨hclean, hsame e fun hbound => (hopen e hbound).1 hclean⟩
  · intro e _ _ hfrozen _
    refine hsame e fun hbound => ?_
    rw [(hopen e hbound).2] at hfrozen
    cases hfrozen

/-- An entity changes, and the containers do not. -/
theorem modifyEntity_allowed {e : Nat} {g : Entity α → Entity α} (hcells : t.cells = s.cells)
    (hent : t.entities = s.entities.modify e g) (hfrozen : ∀ ent, (g ent).frozen = ent.frozen)
    (hfields : Tracked t e → (Tracked s e → FieldsTight s e) →
      ∀ f v, t.field e f = some v → Tight s (some e) v)
    (hclean : X e ∨ t.stateOf e ≠ some .clean)
    (hsealed : Y e ∨ s.frozenOf e = false ∨ ∀ f, t.field e f = s.field e f) :
    Allowed X Y s t := by
  -- One entity changes, and the cells do not.
  have hself : t.entities[e]? = s.entities[e]?.map g := by
    rw [hent]
    exact List.getElem?_modify_eq ..
  have hne : ∀ e', e' ≠ e → t.entities[e']? = s.entities[e']? := by
    intro e' he'
    rw [hent]
    exact List.getElem?_modify_ne _ _ (Ne.symm he')
  have hbounds : ∀ n owner, s.boundOf n = some owner → t.boundOf n = some owner := by
    intro n owner hn
    rw [State.boundOf, hcells]
    exact hn
  have hfrozenOf : ∀ e', t.frozenOf e' = s.frozenOf e' := by
    intro e'
    rw [State.frozenOf, State.frozenOf]
    by_cases heq : e' = e
    · rw [heq, hself, Option.map_map]
      exact congrArg (fun r => Option.getD r false) (Option.map_congr fun ent _ => hfrozen ent)
    · rw [hne e' heq]
  have hfield : ∀ e', e' ≠ e → ∀ f, t.field e' f = s.field e' f := by
    intro e' he' f
    rw [State.field, State.field, hne e' he']
  have hstate : ∀ e', e' ≠ e → t.stateOf e' = s.stateOf e' := by
    intro e' he'
    rw [State.stateOf, State.stateOf, hne e' he']
  have hsame : ∀ e', (∀ f, t.field e' f = s.field e' f) → Same e' s t :=
    fun e' h => ⟨h, fun n cell hn _ => hcells ▸ hn⟩
  intro hs
  refine ⟨⟨?_, ?_⟩, ?_, fun e' _ => hfrozenOf e', hbounds, ?_, ?_⟩
  · intro n cell owner hn hbound v hv
    rw [hcells] at hn
    exact (hs.cells n cell owner hn hbound v hv).mono hbounds
  · intro e' he'
    by_cases heq : e' = e
    · subst heq
      exact fun f v hf => (hfields he' (hs.fields e') f v hf).mono hbounds
    · rw [Tracked, hfrozenOf, hstate e' heq] at he'
      exact (hs.fields e' he').mono (hfield e' heq) hbounds
  · rw [hent, List.length_modify]
  · intro e' _ hX ht
    have heq : e' ≠ e := by
      rintro rfl
      exact hclean.elim hX fun h => h ht
    exact ⟨(hstate e' heq).symm.trans ht, hsame e' (hfield e' heq)⟩
  · intro e' _ hY hfrozen' _
    by_cases heq : e' = e
    · subst heq
      rcases hsealed with h | h | h
      · exact absurd h hY
      · rw [h] at hfrozen'
        cases hfrozen'
      · exact hsame e' h
    · exact hsame e' (hfield e' heq)

theorem stateOf_of_modify {e : Nat} {g : Entity α → Entity α}
    (hent : t.entities = s.entities.modify e g) : t.stateOf e = s.entities[e]?.map fun ent =>
      (g ent).state := by
  rw [State.stateOf, hent, List.getElem?_modify_eq]
  cases s.entities[e]? <;> rfl

/-- An entity becomes anything but clean. -/
theorem setState_allowed {e : Nat} {st : EntityState} (hcells : t.cells = s.cells)
    (hent : t.entities = (s.setState e st).entities) (hst : st ≠ .clean) : Allowed X Y s t := by
  have hfield : ∀ f, t.field e f = s.field e f := by
    intro f
    rw [State.field, State.field, hent, setState, modifyEntity, List.getElem?_modify_eq]
    cases s.entities[e]? <;> rfl
  have hstate : t.stateOf e ≠ some .clean := by
    rw [stateOf_of_modify hent]
    cases s.entities[e]? with
    | none => simp
    | some ent => simpa using hst
  have hfrozen : t.frozenOf e = s.frozenOf e := by
    rw [State.frozenOf, State.frozenOf, hent, setState, modifyEntity, List.getElem?_modify_eq]
    cases s.entities[e]? <;> rfl
  refine modifyEntity_allowed (e := e) hcells hent (fun _ => rfl) ?_ (Or.inr hstate)
    (Or.inr (Or.inr hfield))
  intro ht hs f v hf
  have htracked : Tracked s e := Or.inl (hfrozen ▸ ht.resolve_right hstate)
  exact hs htracked f v ((hfield f).symm.trans hf)

/-- An entity becomes clean whose containers are its own. -/
theorem settled_allowed {e : Nat} (hX : X e)
    (hfields : Tracked s e ∨ FieldsTight s e) : Allowed X Y s (s.setState e .clean) := by
  have hfield : ∀ f, (s.setState e .clean).field e f = s.field e f := by
    intro f
    rw [State.field, State.field, setState, modifyEntity, List.getElem?_modify_eq]
    cases s.entities[e]? <;> rfl
  refine modifyEntity_allowed (e := e) rfl rfl (fun _ => rfl) ?_ (Or.inl hX)
    (Or.inr (Or.inr hfield))
  intro _ hs f v hf
  exact hfields.elim hs id f v ((hfield f).symm.trans hf)

theorem field_setField {e : Nat} {f : String} {v : Value α} (f' : String) :
    (s.setField e f v).field e f' = if f' = f then s.entities[e]?.map fun _ => v
      else s.field e f' := by
  rw [State.field, State.field, setField, modifyEntity, List.getElem?_modify_eq]
  cases s.entities[e]? with
  | none => simp
  | some ent => simpa using Dict.get?_set ent.fields f f' v

theorem stateOf_setField {e : Nat} {f : String} {v : Value α} (e' : Nat) :
    (s.setField e f v).stateOf e' = s.stateOf e' := by
  rw [State.stateOf, State.stateOf, setField, modifyEntity, List.getElem?_modify]
  cases s.entities[e']? with
  | none => rfl
  | some ent => by_cases h : e = e' <;> simp [h]

theorem frozenOf_setField {e : Nat} {f : String} {v : Value α} (e' : Nat) :
    (s.setField e f v).frozenOf e' = s.frozenOf e' := by
  rw [State.frozenOf, State.frozenOf, setField, modifyEntity, List.getElem?_modify]
  cases s.entities[e']? with
  | none => rfl
  | some ent => by_cases h : e = e' <;> simp [h]

/-- A field takes a value that belongs to the entity. -/
theorem setField_allowed {e : Nat} {f : String} {v : Value α}
    (hv : Tracked s e → Tight s (some e) v) (hclean : X e ∨ s.stateOf e ≠ some .clean)
    (hsealed : Y e ∨ s.frozenOf e = false) : Allowed X Y s (s.setField e f v) := by
  refine modifyEntity_allowed (e := e) rfl rfl (fun _ => rfl) ?_ ?_ ?_
  · intro ht hs f' w hf
    rw [Tracked, stateOf_setField, frozenOf_setField] at ht
    rw [field_setField] at hf
    split_ifs at hf with heq
    · rcases Option.map_eq_some_iff.mp hf with ⟨_, _, rfl⟩
      exact hv ht
    · exact hs ht f' w hf
  · rw [stateOf_setField]
    exact hclean
  · exact hsealed.imp id Or.inl

end Change

/-! ### What a mutator leaves in a container -/

section Contents

variable {body body' : Body α κ} {v w : Value α}

theorem setSlice_values {start stop : Nat} {vs : List (Value α)}
    (h : setSlice start stop vs body = .ok body') (hw : w ∈ body'.values) :
    w ∈ vs ∨ w ∈ body.values := by
  cases body with
  | dict entries => cases h
  | list items =>
      cases h
      rcases List.mem_append.mp hw with hw | hw
      · rcases List.mem_append.mp hw with hw | hw
        · exact Or.inr (List.mem_of_mem_take hw)
        · exact Or.inl hw
      · exact Or.inr (List.mem_of_mem_drop hw)

theorem mem_foldl_set (xs : List (Nat × Value α)) : ∀ items : List (Value α),
    w ∈ xs.foldl (fun acc x => acc.set x.1 x.2) items → w ∈ xs.map Prod.snd ∨ w ∈ items := by
  induction xs with
  | nil => exact fun items h => Or.inr h
  | cons x xs ih =>
      intro items h
      rcases ih _ h with h | h
      · exact Or.inl (List.mem_cons_of_mem _ h)
      · rcases List.mem_or_eq_of_mem_set h with h | h
        · exact Or.inr h
        · exact Or.inl (h ▸ List.mem_cons_self)

theorem setSteps_values {positions : List Nat} {vs : List (Value α)}
    (h : setSteps positions vs body = .ok body') (hw : w ∈ body'.values) :
    w ∈ vs ∨ w ∈ body.values := by
  cases body with
  | dict entries => cases h
  | list items =>
      simp only [setSteps] at h
      split_ifs at h
      cases h
      rcases mem_foldl_set _ _ hw with hw | hw
      · rcases List.mem_map.mp hw with ⟨x, hx, rfl⟩
        exact Or.inl (List.of_mem_zip hx).2
      · exact Or.inr hw

variable [DecidableEq κ]

/-- What an edit that takes values away from a list leaves in it was there before. -/
theorem edit_items {edit : Edit κ} {items : List (Value α)}
    (h : edit.perform (.list items) = .ok body') (hw : w ∈ body'.values) : w ∈ items := by
  cases edit with
  | deleteAt i =>
      simp only [Edit.perform] at h
      split at h
      · cases h
      · cases h
        exact List.mem_of_mem_eraseIdx hw
  | remove found =>
      cases found with
      | none => cases h
      | some j =>
          cases h
          exact List.mem_of_mem_eraseIdx hw
  | deleteSlice positions =>
      cases h
      rcases List.mem_map.mp hw with ⟨⟨u, j⟩, hu, rfl⟩
      exact (List.mem_zipIdx (List.mem_of_mem_filter hu)).2.2 ▸ List.getElem_mem _
  | clear =>
      cases h
      exact absurd hw List.not_mem_nil
  | sort order =>
      -- The order names positions of the list.
      cases h
      rcases List.mem_filterMap.mp hw with ⟨i, -, hi⟩
      exact List.mem_of_getElem? hi
  | reverse =>
      cases h
      exact List.mem_reverse.mp hw
  | repeated count =>
      cases h
      rcases List.mem_flatten.mp hw with ⟨xs, hxs, hw⟩
      rw [List.eq_of_mem_replicate hxs] at hw
      exact hw
  | deleteKey k => cases h
  | discardKey k => cases h
  | popitem => cases h

/-- What an edit that takes entries away from a dictionary leaves in it was there
    before. -/
theorem edit_entries {edit : Edit κ} {entries : Dict κ (Value α)}
    (h : edit.perform (.dict entries) = .ok body') (hw : w ∈ body'.values) :
    w ∈ entries.values := by
  have herase : ∀ k, w ∈ (entries.erase k).values → w ∈ entries.values := by
    intro k hk
    rcases mem_values_iff.mp hk with ⟨j, hj⟩
    rw [Dict.get?_erase] at hj
    split_ifs at hj
    exact mem_values_iff.mpr ⟨j, hj⟩
  cases edit with
  | deleteKey k =>
      simp only [Edit.perform] at h
      split_ifs at h
      cases h
      exact herase k hw
  | discardKey k =>
      cases h
      exact herase k hw
  | popitem =>
      simp only [Edit.perform] at h
      split at h
      · cases h
      · cases h
        exact herase _ hw
  | clear =>
      cases h
      exact absurd hw List.not_mem_nil
  | deleteAt i => cases h
  | remove found => cases h
  | deleteSlice positions => cases h
  | sort order => cases h
  | reverse => cases h
  | repeated count => cases h

/-- A mutation that takes nothing in leaves values that were there. -/
theorem edit_values {edit : Edit κ} (h : edit.perform body = .ok body') (hw : w ∈ body'.values) :
    w ∈ body.values := by
  cases body with
  | list items => exact edit_items h hw
  | dict entries => exact edit_entries h hw

/-- A value that is put somewhere is the only one that comes in. -/
theorem place_values {place : Place κ} (h : place.perform v body = .ok body')
    (hw : w ∈ body'.values) : w = v ∨ w ∈ body.values := by
  -- A list takes a value anywhere, a dictionary under a key; the rest raise.
  cases body with
  | list items =>
      cases place with
      | append =>
          cases h
          rcases List.mem_append.mp hw with hw | hw
          · exact Or.inr hw
          · exact Or.inl (List.mem_singleton.mp hw)
      | insert i =>
          cases h
          rcases List.mem_append.mp hw with hw | hw
          · exact Or.inr (List.mem_of_mem_take hw)
          · rcases List.mem_cons.mp hw with hw | hw
            · exact Or.inl hw
            · exact Or.inr (List.mem_of_mem_drop hw)
      | setAt i =>
          simp only [Place.perform] at h
          split at h
          · cases h
          · cases h
            exact (List.mem_or_eq_of_mem_set hw).symm
      | setKey k => cases h
  | dict entries =>
      cases place with
      | setKey k =>
          cases h
          rcases mem_values_iff.mp hw with ⟨j, hj⟩
          rw [Dict.get?_set] at hj
          split_ifs at hj
          · cases hj
            exact Or.inl rfl
          · exact Or.inr (mem_values_iff.mpr ⟨j, hj⟩)
      | append => cases h
      | insert i => cases h
      | setAt i => cases h

end Contents

/-! ### The programs -/

/-- A container that may be written to: its owner, if it has one, is neither clean nor
    frozen. -/
structure Writable (s : State α κ) (n : Nat) (bound : Option (Option Nat)) : Prop where
  cell : s.cells[n]?.map Cell.bound = some bound
  owner : ∀ e, bound = some (some e) → s.stateOf e ≠ some .clean ∧ s.frozenOf e = false

/-- A value that may enter a container that is bound so. -/
def Fits (s : State α κ) (bound : Option (Option Nat)) (v : Value α) : Prop :=
  ∀ owner, bound = some owner → Tight s owner v

theorem Writable.extends {s t : State α κ} {n : Nat} {bound : Option (Option Nat)}
    (h : Writable s n bound) (hst : Extends s t) : Writable t n bound := by
  rcases Option.map_eq_some_iff.mp h.cell with ⟨cell, hcell, hbound⟩
  refine ⟨by rw [hst.cells n cell hcell, Option.map_some, hbound], fun e he => ?_⟩
  rw [hst.stateOf, hst.frozenOf]
  exact h.owner e he

theorem Fits.extends {bound : Option (Option Nat)} (v : Value α) (s t : State α κ)
    (hst : Extends s t) (h : Fits s bound v) : Fits t bound v :=
  fun owner hbound => (h owner hbound).mono hst.bounds

/-- Only containers have changed, in a way that an operation is allowed to. The
    entities are the same and so is the set of the dirty ones. -/
structure Poured (X Y : Nat → Prop) (s t : State α κ) : Prop where
  allowed : Allowed X Y s t
  entities : t.entities = s.entities
  dirty : t.dirty = s.dirty

theorem Poured.refl (X Y : Nat → Prop) (s : State α κ) : Poured X Y s s :=
  ⟨Allowed.refl X Y s, rfl, rfl⟩

theorem Poured.trans (X Y : Nat → Prop) (s t u : State α κ) (h : Poured X Y s t)
    (h' : Poured X Y t u) : Poured X Y s u :=
  ⟨Allowed.trans X Y s t u h.allowed h'.allowed, h'.entities.trans h.entities,
    h'.dirty.trans h.dirty⟩

theorem Extends.poured {X Y : Nat → Prop} {s t : State α κ} (h : Extends s t) : Poured X Y s t :=
  ⟨h.allowed, h.entities, h.dirty⟩

section Programs

variable {X Y : Nat → Prop} {n : Nat} {bound : Option (Option Nat)}

theorem editCell_spec {s : State α κ} {g : Body α κ → Except Raised (Body α κ)}
    (hw : Writable s n bound) (hg : ∀ body body', g body = .ok body' →
      ∀ v ∈ body'.values, Fits s bound v ∨ v ∈ body.values) :
    Framed (Poured X Y) (editCell n g) s fun _ t => Writable t n bound := by
  have hrefl := Poured.refl (α := α) (κ := κ) X Y
  rcases Option.map_eq_some_iff.mp hw.cell with ⟨cell, hn, rfl⟩
  refine framed_get_bind ?_
  simp only [hn]
  refine framed_bind (Poured.trans X Y) (framed_ofExcept hrefl) ?_
  rintro body _ - ⟨rfl, hbody⟩
  refine framed_modify ⟨setBody_allowed hn hw.owner fun owner hbound v hv => ?_, rfl, rfl⟩
    ⟨?_, hw.owner⟩
  · exact (hg cell.body body hbody v hv).imp (fun h => h owner hbound) id
  · rw [setBody, List.getElem?_modify_eq, hn]
    rfl

variable [DecidableEq κ]

theorem performWith_spec {wrap : Value α → M α κ (Value α)}
    (hwrap : ∀ v s, Framed Extends (wrap v) s fun w t => Fits t bound w)
    (mutation : Mutation α κ) (s : State α κ) (hw : Writable s n bound) :
    Framed (Poured X Y) (performWith wrap n mutation) s fun _ _ => True := by
  have hrefl := Poured.refl (α := α) (κ := κ) X Y
  have htrans := Poured.trans (α := α) (κ := κ) X Y
  -- One value: it is wrapped, and then it fits the container it is put into.
  have hput : ∀ (place : Place κ) (v : Value α) (s : State α κ), Writable s n bound →
      Framed (Poured X Y) (do
        let v ← wrap v
        editCell n (place.perform v)) s fun _ t => Writable t n bound := by
    intro place v s hw
    have hone := ((hwrap v s).imp fun w t hst hv =>
      (⟨hv, hw.extends hst⟩ : Fits t bound w ∧ Writable t n bound))
    refine framed_bind htrans (hone.widen fun t => Extends.poured) fun w t _ hw' => ?_
    refine editCell_spec hw'.2 fun body body' hbody u hu => ?_
    rcases place_values hbody hu with rfl | hu
    · exact Or.inl hw'.1
    · exact Or.inr hu
  -- A slice: all of them are wrapped before the container changes.
  have hall : ∀ (vs : List (Value α)), Framed (Poured X Y) (vs.mapM wrap) s fun ws t =>
      (∀ w ∈ ws, Fits t bound w) ∧ Writable t n bound := by
    intro vs
    have hloop := framed_mapM Extends.trans Extends.refl Fits.extends vs (fun v _ => hwrap v) s
    exact (hloop.imp fun ws t hst h => ⟨h, hw.extends hst⟩).widen fun t => Extends.poured
  cases mutation with
  | edit edit =>
      exact (editCell_spec hw fun body body' hbody v hv =>
        Or.inr (edit_values hbody hv)).imp fun _ _ _ _ => trivial
  | put place v => exact (hput place v s hw).imp fun _ _ _ _ => trivial
  | putAll entries =>
      refine (framed_forM htrans hrefl (P := fun _ s => Writable s n bound)
        (fun e _ s hs => hput e.1 e.2 s hs) entries s hw).imp fun _ _ _ _ => trivial
  | setSlice start stop vs =>
      refine framed_bind htrans (hall vs) fun ws t _ hws => ?_
      refine (editCell_spec hws.2 fun body body' hbody v hv => ?_).imp fun _ _ _ _ => trivial
      exact (setSlice_values hbody hv).imp (hws.1 v) id
  | setSteps positions vs =>
      refine framed_bind htrans (hall vs) fun ws t _ hws => ?_
      refine (editCell_spec hws.2 fun body body' hbody v hv => ?_).imp fun _ _ _ _ => trivial
      exact (setSteps_values hbody hv).imp (hws.1 v) id
  | setdefault k v => exact (hput (.setKey k) v s hw).imp fun _ _ _ _ => trivial

omit [DecidableEq κ] in
theorem frozenOf_onFirstWrite {s : State α κ} (e e' : Nat) :
    (s.onFirstWrite e).frozenOf e' = s.frozenOf e' := by
  rw [State.frozenOf, State.frozenOf, onFirstWrite, setState, modifyEntity, List.getElem?_modify]
  cases s.entities[e']? with
  | none => rfl
  | some ent => by_cases h : e = e' <;> simp [h]

omit [DecidableEq κ] in
/-- An entity that was touched is not clean, and the containers have not changed. -/
theorem touchEntity_spec {foreign : Bool} {e : Nat} {s : State α κ} :
    Framed (Allowed X Y) (touchEntity foreign e) s fun _ t =>
      t.stateOf e ≠ some .clean ∧ t.cells = s.cells ∧ ∀ e', t.frozenOf e' = s.frozenOf e' := by
  have hrefl := Allowed.refl (α := α) (κ := κ) X Y
  have htrans := Allowed.trans (α := α) (κ := κ) X Y
  refine framed_get_bind ?_
  split_ifs with hdeleted hclean
  · exact framed_throw hrefl
  · refine framed_bind htrans (framed_raiseIf hrefl) ?_
    rintro _ _ - ⟨rfl, -⟩
    refine framed_bind htrans (framed_raiseIf hrefl) ?_
    rintro _ t - ⟨rfl, -⟩
    have hallowed : Allowed X Y t (t.onFirstWrite e) :=
      setState_allowed rfl rfl (by decide : EntityState.dirty ≠ .clean)
    refine framed_modify hallowed ⟨?_, rfl, frozenOf_onFirstWrite e⟩
    rw [onFirstWrite, stateOf_of_modify (s := t) rfl]
    cases t.entities[e]? <;> simp
  · exact framed_pure hrefl ⟨hclean, rfl, fun _ => rfl⟩

theorem wrapValue_fits (owner : Option Nat) (depth : Nat) (v : Value α) (s : State α κ) :
    Framed Extends (wrapValue owner depth v) s fun w t => Fits t (some owner) w := by
  refine ((wrapValue_spec depth v s).widen fun t => Grown.extends).imp ?_
  rintro w t - hw _ ⟨⟩
  exact hw

theorem mutate_spec (depth : Nat) (foreign : Bool) (n : Nat) (mutation : Mutation α κ)
    (s : State α κ) :
    Framed (Allowed X Y) (mutate depth foreign n mutation) s fun _ _ => True := by
  have hrefl := Allowed.refl (α := α) (κ := κ) X Y
  have htrans := Allowed.trans (α := α) (κ := κ) X Y
  refine framed_get_bind ?_
  cases hn : s.cells[n]? with
  | none => exact framed_throw hrefl
  | some cell =>
      by_cases hidle : mutation.idle cell.body = true
      -- `setdefault` of a key that is there.
      · simp only [hidle, if_true]
        exact framed_pure hrefl trivial
      · simp only [hidle, if_false, Bool.false_eq_true]
        have hcell : s.cells[n]?.map Cell.bound = some cell.bound := by rw [hn, Option.map_some]
        cases hbound : cell.bound with
        | none =>
            rw [hbound] at hcell
            -- No owner: nothing to wrap for, so every value fits.
            have hpure : ∀ (v : Value α) (s : State α κ), Framed Extends
                (pure v : M α κ (Value α)) s fun w t => Fits t none w :=
              fun v s => framed_pure Extends.refl (fun _ h => nomatch h)
            exact (performWith_spec hpure mutation s ⟨hcell, fun _ h => nomatch h⟩).widen
              fun t h => h.allowed
        | some owner =>
            rw [hbound] at hcell
            -- The touch raises, or leaves the owner writable.
            have htouch : Framed (Allowed X Y) (touch foreign owner) s fun _ t =>
                Writable t n (some owner) := by
              refine framed_get_bind ?_
              cases owner with
              | none => exact framed_pure hrefl ⟨hcell, fun _ h => nomatch h⟩
              | some e =>
                  by_cases hfrozen : s.frozenOf e = true
                  · simp only [hfrozen, if_true]
                    exact framed_throw hrefl
                  · simp only [hfrozen, if_false, Bool.false_eq_true]
                    refine touchEntity_spec.imp ?_
                    rintro _ t - ⟨hclean, hcells, hfrozenOf⟩
                    refine ⟨by rw [hcells, hcell], ?_⟩
                    rintro _ ⟨⟩
                    exact ⟨hclean, (hfrozenOf e).trans (Bool.not_eq_true _ ▸ hfrozen)⟩
            exact framed_bind htrans htouch fun _ t _ ht =>
              (performWith_spec (wrapValue_fits owner depth) mutation t ht).widen
                fun u h => h.allowed

theorem setattr_spec (depth : Nat) (foreign : Bool) (e : Nat) (f : String) (v : Value α)
    (s : State α κ) : Framed (Allowed X Y) (setattr depth foreign e f v) s fun _ _ => True := by
  have hrefl := Allowed.refl (α := α) (κ := κ) X Y
  have htrans := Allowed.trans (α := α) (κ := κ) X Y
  refine framed_get_bind ?_
  by_cases hfrozen : s.frozenOf e = true
  · simp only [hfrozen, if_true]
    exact framed_throw hrefl
  · simp only [hfrozen, if_false, Bool.false_eq_true]
    refine framed_bind htrans touchEntity_spec ?_
    rintro _ t - ⟨hclean, -, hfrozenOf⟩
    have hwrap : Framed (Allowed X Y) (wrapValue (some e) depth v) t fun w u =>
        Tight u (some e) w ∧ u.stateOf e ≠ some .clean ∧ u.frozenOf e = false := by
      refine ((wrapValue_spec depth v t).imp ?_).widen fun u h => h.extends.allowed
      intro w u htu hw
      rw [htu.extends.stateOf, htu.extends.frozenOf, hfrozenOf]
      exact ⟨hw, hclean, Bool.not_eq_true _ ▸ hfrozen⟩
    refine framed_bind htrans hwrap fun w u _ hw => framed_modify ?_ trivial
    exact setField_allowed (fun _ => hw.1) (Or.inr hw.2.1) (Or.inr hw.2.2)

/-- What is still to be filled in, and what is filled in already. `T` says whether the values
    belong to the entity. -/
structure Filling (T : Prop) (e : Nat) (fr : Bool) (st : Option EntityState)
    (rest : List (String × Value α)) (s : State α κ) : Prop where
  frozenOf : s.frozenOf e = fr
  stateOf : s.stateOf e = st
  fields : T → ∀ f v, s.field e f = some v → (∃ x ∈ rest, x.1 = f) ∨ Tight s (some e) v

omit [DecidableEq κ] in
theorem fillFields_spec {T : Prop} {e : Nat} {fr : Bool} {st : Option EntityState} (hX : X e)
    (hY : Y e) (hT : fr = false ∨ st = some .clean → T) {make : Value α → M α κ (Value α)}
    {P : Value α → Prop} (hmake : ∀ v s, Framed Extends (make v) s fun w t =>
      P v → T → Tight t (some e) w) (xs : List (String × Value α)) (hP : ∀ x ∈ xs, P x.2)
    (s : State α κ) (hs : Filling T e fr st xs s) :
    Framed (Allowed X Y) (fillFields e make xs) s fun _ t => Filling T e fr st [] t := by
  have hrefl := Allowed.refl (α := α) (κ := κ) X Y
  have htrans := Allowed.trans (α := α) (κ := κ) X Y
  refine (framed_forM htrans hrefl (P := fun rest s => (∀ x ∈ rest, P x.2) ∧
    Filling T e fr st rest s) ?_ xs s ⟨hP, hs⟩).imp fun _ _ _ h => h.2
  rintro x rest s ⟨hP, hs⟩
  have hone := (hmake x.2 s).imp fun w t hst hw =>
    (⟨hst, hw (hP x List.mem_cons_self)⟩ : Extends s t ∧ (T → Tight t (some e) w))
  refine framed_bind htrans (hone.widen fun t => Extends.allowed) ?_
  -- The field that is filled leaves the list of those to be filled.
  rintro w t - ⟨hst, hw⟩
  have hstate := (hst.stateOf e).trans hs.stateOf
  have hfrozen := (hst.frozenOf e).trans hs.frozenOf
  have htracked : Tracked t e → T := by
    intro h
    rw [Tracked, hstate, hfrozen] at h
    exact hT h
  refine framed_modify (setField_allowed (fun h => hw (htracked h)) (Or.inl hX) (Or.inl hY))
    ⟨fun y hy => hP y (List.mem_cons_of_mem x hy), ?_, ?_, ?_⟩
  · rw [frozenOf_setField]
    exact hfrozen
  · rw [stateOf_setField]
    exact hstate
  · intro hT' f v hf
    rw [field_setField] at hf
    split_ifs at hf with heq
    · rcases Option.map_eq_some_iff.mp hf with ⟨_, _, rfl⟩
      exact Or.inr (hw hT')
    · rw [hst.field] at hf
      rcases hs.fields hT' f v hf with ⟨y, hy, rfl⟩ | htight
      · rcases List.mem_cons.mp hy with rfl | hy
        · exact absurd rfl heq
        · exact Or.inl ⟨y, hy, rfl⟩
      · exact Or.inr (htight.mono hst.bounds)

omit [DecidableEq κ] in
theorem Filling.fieldsTight {e : Nat} {fr : Bool} {st : Option EntityState} {s : State α κ}
    (h : Filling True e fr st [] s) : FieldsTight s e := by
  intro f v hf
  rcases h.fields trivial f v hf with ⟨x, hx, -⟩ | h
  · exact absurd hx List.not_mem_nil
  · exact h

/-- The containers have not changed and the fields of an entity have not, so
    whatever is read of it, to any depth, is what it was. -/
structure Kept (e : Nat) (s t : State α κ) : Prop where
  cells : t.cells = s.cells
  fields : ∀ f, t.field e f = s.field e f

omit [DecidableEq κ] in
theorem Kept.refl (e : Nat) (s : State α κ) : Kept e s s := ⟨rfl, fun _ => rfl⟩

omit [DecidableEq κ] in
theorem Kept.trans (e : Nat) (s t u : State α κ) (h : Kept e s t) (h' : Kept e t u) :
    Kept e s u :=
  ⟨h'.cells.trans h.cells, fun f => (h'.fields f).trans (h.fields f)⟩

omit [DecidableEq κ] in
theorem setState_kept {e : Nat} {st : EntityState} (s : State α κ) :
    Kept e s (s.setState e st) := by
  refine ⟨rfl, fun f => ?_⟩
  rw [State.field, State.field, setState, modifyEntity, List.getElem?_modify_eq]
  cases s.entities[e]? <;> rfl

omit [DecidableEq κ] in
theorem mem_entries_of_field {s : State α κ} {e : Nat} {f : String} {v : Value α} :
    s.field e f = some v ↔
      (f, v) ∈ ((s.entities[e]?.map Entity.fields).getD Dict.empty).entries := by
  rw [State.field]
  cases s.entities[e]? with
  | none => exact ⟨fun h => (nomatch h), fun h => absurd h List.not_mem_nil⟩
  | some ent => exact Dict.get?_eq_some_iff ent.fields f v

/-- Settling an entity whose containers are its own changes none of its fields. -/
theorem settle_kept (depth e : Nat) {s : State α κ} (hfields : FieldsTight s e) :
    Framed (Kept e) (settle depth e) s fun _ _ => True := by
  have hrefl := Kept.refl (α := α) (κ := κ) e
  have htrans := Kept.trans (α := α) (κ := κ) e
  refine framed_get_bind ?_
  by_cases hfrozen : s.frozenOf e = true
  · simp only [hfrozen, if_true]
    refine framed_bind htrans (framed_forM htrans hrefl (P := fun rest t =>
      FieldsTight t e ∧ ∀ x ∈ rest, t.field e x.1 = some x.2) ?_ _ s
      ⟨hfields, fun x hx => mem_entries_of_field.mpr hx⟩) ?_
    · rintro x rest t ⟨htight, hrest⟩
      have hx := hrest x List.mem_cons_self
      refine framed_bind htrans ((wrapValue_tight depth x.2 t (htight _ _ hx)).imp
        (fun w u htu hw => (⟨htu, hw⟩ : t = u ∧ w = x.2)) |>.widen
          fun u htu => htu ▸ hrefl t) ?_
      rintro _ _ - ⟨rfl, rfl⟩
      have hkept : Kept e t (t.setField e x.1 x.2) := by
        refine ⟨rfl, fun f => ?_⟩
        rw [field_setField]
        split_ifs with heq
        · rw [heq, hx]
          rw [State.field] at hx
          rcases Option.bind_eq_some_iff.mp hx with ⟨ent, hent, -⟩
          rw [hent, Option.map_some]
        · rfl
      refine framed_modify hkept ⟨htight.mono hkept.fields fun _ _ h => h, fun y hy => ?_⟩
      rw [hkept.fields]
      exact hrest y (List.mem_cons_of_mem x hy)
    · exact fun _ t _ _ => framed_modify (setState_kept t) trivial
  · simp only [hfrozen, if_false, Bool.false_eq_true]
    exact framed_modify (setState_kept s) trivial

/-- A captured entity is clean and its containers are its own. A frozen one that was
    settled before is not changed. -/
theorem settle_spec (depth e : Nat) (hX : X e) (s : State α κ) :
    Framed (Allowed X Y) (settle depth e) s fun _ _ => True := by
  have hmain : Framed (Allowed X fun e' => Y e' ∨ e' = e) (settle depth e) s fun _ _ => True := by
    have htrans := Allowed.trans (α := α) (κ := κ) X fun e' => Y e' ∨ e' = e
    refine framed_get_bind ?_
    by_cases hfrozen : s.frozenOf e = true
    · simp only [hfrozen, if_true]
      have hwrap : ∀ (v : Value α) (s : State α κ), Framed Extends
          (wrapValue (some e) depth v) s fun w t => True → True → Tight t (some e) w := by
        intro v s
        exact ((wrapValue_spec depth v s).widen fun t => Grown.extends).imp fun w t _ hw _ _ => hw
      refine framed_bind htrans (fillFields_spec (T := True) hX
        (Or.inr rfl) (fun _ => trivial) hwrap _ (fun _ _ => trivial) s
        ⟨hfrozen, rfl, fun _ f v hf => ?_⟩) ?_
      · exact Or.inl ⟨(f, v), mem_entries_of_field.mp hf, rfl⟩
      · intro _ t _ ht
        exact framed_modify (settled_allowed hX (Or.inr ht.fieldsTight)) trivial
    · simp only [hfrozen, if_false, Bool.false_eq_true]
      exact framed_modify (settled_allowed hX (Or.inl (Or.inl (Bool.not_eq_true _ ▸ hfrozen))))
        trivial
  refine ⟨fun hs => ?_, fun _ _ _ => trivial⟩
  rcases hmain.keeps hs with ⟨hinv, hedits⟩
  refine ⟨hinv, hedits.narrow (fun e' _ hX' _ hXe => absurd hXe hX') ?_⟩
  rintro e' - hY' (hYe | rfl) - hfields
  · exact absurd hYe hY'
  · have hkept := (settle_kept depth e' hfields).keeps
    exact ⟨hkept.fields, fun n cell hn _ => hkept.cells ▸ hn⟩

omit [DecidableEq κ] in
/-- A new entity has no fields yet. -/
theorem newEntity_spec (T : Prop) (fr : Bool) (st : EntityState) (xs : List (String × Value α))
    (s : State α κ) :
    Framed (Allowed X Y) (newEntity fr st : M α κ Nat) s fun e t =>
      e = s.entities.length ∧ Filling T e fr (some st) xs t := by
  let t : State α κ := { s with
    entities := s.entities ++ [(⟨fr, st, Dict.empty⟩ : Entity α)] }
  -- The new entity stands behind all the others and has no fields yet.
  have hold : ∀ e < s.entities.length, t.entities[e]? = s.entities[e]? :=
    fun e he => List.getElem?_append_left he
  have hnew : t.entities[s.entities.length]? = some ⟨fr, st, Dict.empty⟩ :=
    List.getElem?_concat_length
  have hnone : ∀ f v, t.field s.entities.length f ≠ some v := by
    intro f v h
    rw [State.field, hnew] at h
    cases h
  have hsame : ∀ e < s.entities.length, Same e s t := by
    refine fun e he => ⟨fun f => ?_, fun _ _ h _ => h⟩
    rw [State.field, State.field, hold e he]
  have hstate : ∀ e < s.entities.length, t.stateOf e = s.stateOf e := by
    intro e he
    rw [State.stateOf, State.stateOf, hold e he]
  have hfrozen : ∀ e < s.entities.length, t.frozenOf e = s.frozenOf e := by
    intro e he
    rw [State.frozenOf, State.frozenOf, hold e he]
  have hallowed : Allowed X Y s t := by
    intro hs
    refine ⟨⟨hs.cells, ?_⟩, ?_, hfrozen, fun _ _ h => h, ?_, ?_⟩
    · intro e he
      rcases lt_trichotomy e s.entities.length with hlt | rfl | hgt
      · rw [Tracked, hfrozen e hlt, hstate e hlt] at he
        exact (hs.fields e he).mono (hsame e hlt).fields fun _ _ h => h
      · exact fun f v hf => absurd hf (hnone f v)
      · intro f v hf
        rw [State.field, List.getElem?_eq_none (by simp [t]; omega)] at hf
        cases hf
    · simp [t]
    · exact fun e he _ ht => ⟨(hstate e he).symm.trans ht, hsame e he⟩
    · exact fun e he _ _ _ => hsame e he
  refine framed_get_bind (framed_bind (Allowed.trans X Y) (P := fun _ u => u = t)
    (framed_set hallowed rfl) ?_)
  rintro _ _ - rfl
  refine framed_pure (Allowed.refl X Y) ⟨rfl, ?_, ?_, fun _ f v hf => absurd hf (hnone f v)⟩
  · rw [State.frozenOf, hnew]
    rfl
  · rw [State.stateOf, hnew]
    rfl

omit [DecidableEq κ] in
/-- A new entity with its fields filled in; nothing that was there has changed. -/
theorem created_spec {T : Prop} {fr : Bool} {st : EntityState} (hT : fr = false ∨ st = .clean → T)
    {make : Nat → Value α → M α κ (Value α)} {P : Value α → Prop}
    (hmake : ∀ e v s, Framed Extends (make e v) s fun w t => P v → T → Tight t (some e) w)
    (xs : List (String × Value α)) (hP : ∀ x ∈ xs, P x.2) (s : State α κ) :
    Framed (Allowed X Y) (newEntity fr st >>= fun e => fillFields e (make e) xs) s
      fun _ _ => True := by
  have hmain : Framed (Allowed (fun e => X e ∨ e = s.entities.length) fun e =>
      Y e ∨ e = s.entities.length) (newEntity fr st >>= fun e => fillFields e (make e) xs) s
      fun _ _ => True := by
    refine framed_bind (Allowed.trans _ _) (newEntity_spec T fr st xs s) ?_
    rintro e t - ⟨rfl, ht⟩
    refine (fillFields_spec (Or.inr rfl) (Or.inr rfl) ?_ (hmake _) xs hP t ht).imp
      fun _ _ _ _ => trivial
    exact fun h => hT (h.imp id fun h => Option.some.inj h)
  refine ⟨fun hs => ?_, fun _ _ _ => trivial⟩
  rcases hmain.keeps hs with ⟨hinv, hedits⟩
  refine ⟨hinv, hedits.narrow (fun e he hX _ hXe => ?_) fun e he hY hYe _ _ => ?_⟩
  · exact absurd (hXe.resolve_left hX) he.ne
  · exact absurd (hYe.resolve_left hY) he.ne

omit [DecidableEq κ] in
/-- A list of the program is nobody's. -/
theorem alloc_plain (body : Body α κ) (s : State α κ) :
    Framed (Allowed X Y) (alloc ⟨none, body⟩) s fun _ _ => True := by
  let t : State α κ := { s with cells := s.cells ++ [⟨none, body⟩] }
  have hcells : ∀ (n : Nat) (cell : Cell α κ), s.cells[n]? = some cell →
      t.cells[n]? = some cell := by
    intro n cell hn
    exact (List.getElem?_append_left (List.getElem?_eq_some_iff.mp hn).1).trans hn
  have hbounds := boundOf_mono hcells
  have hextends : Extends s t := by
    refine ⟨rfl, rfl, rfl, hcells, fun hs => ⟨?_, fun e he => ?_⟩⟩
    · intro n cell owner hn hbound v hv
      by_cases hlt : n < s.cells.length
      · rw [List.getElem?_append_left hlt] at hn
        exact (hs.cells n cell owner hn hbound v hv).mono hbounds
      · rw [List.getElem?_append_right (not_lt.mp hlt)] at hn
        rw [List.mem_singleton.mp (List.mem_of_getElem? hn)] at hbound
        cases hbound
    · exact (hs.fields e he).mono (fun _ => rfl) hbounds
  refine framed_get_bind (framed_bind (Allowed.trans X Y) (P := fun _ u => u = t)
    (framed_set hextends.allowed rfl) ?_)
  rintro _ t - -
  exact framed_pure (Allowed.refl X Y) trivial

end Programs

/-! ### Events and runs -/

namespace Event

variable [DecidableEq κ]

/-- The event puts an entity into the state that is stored. -/
def Settles : Event α κ → Nat → Prop
  | .flip captured, e => e ∈ captured
  | .swap e' _ _, e => e = e'
  | _, _ => False

/-- The event swaps a blob of an entity. -/
def Swaps : Event α κ → Nat → Prop
  | .swap e' _ _, e => e = e'
  | _, _ => False

/-- What is loaded are decoded records. -/
def Loads : Event α κ → Prop
  | .hydrate _ fields => ∀ x ∈ fields, Decoded x.2
  | _ => True

end Event

section Run

variable [DecidableEq κ]

/-- What an event does to the entities that were there. -/
theorem perform_spec (depth : Nat) (event : Event α κ) (hloads : event.Loads) (s : State α κ) :
    Framed (Allowed event.Settles event.Swaps) (perform depth event) s fun _ _ => True := by
  have hrefl := Allowed.refl (α := α) (κ := κ) event.Settles event.Swaps
  have htrans := Allowed.trans (α := α) (κ := κ) event.Settles event.Swaps
  have hnew : EntityState.new ≠ .clean := by decide
  have hdirty : EntityState.dirty ≠ .clean := by decide
  have hdeleted : EntityState.deleted ≠ .clean := by decide
  cases event with
  | container body =>
      exact framed_bind htrans (alloc_plain body s) fun _ t _ _ => framed_pure hrefl trivial
  | detached body =>
      have hgrown := Grown.trans (α := α) (κ := κ) none
      have hmain : Framed (Grown none) (perform depth (.detached body)) s fun _ _ => True := by
        refine framed_bind hgrown (framed_wrapBody (Grown.refl none) hgrown Tight.grown body
          (wrapValue_spec depth) s) fun body' t _ hbody => ?_
        refine framed_bind hgrown (alloc_spec hbody) fun _ u _ _ => ?_
        exact framed_pure (Grown.refl none) trivial
      exact hmain.widen fun t h => h.extends.allowed
  | mutate foreign n mutation => exact mutate_spec depth foreign n mutation s
  | setattr foreign e f v => exact setattr_spec depth foreign e f v s
  | construct frozen fields =>
      -- The constructor of a mutable class wraps what it is given, a frozen one does not.
      cases frozen with
      | false =>
          refine created_spec (T := True) (P := fun _ => True) (fun _ => trivial) ?_ fields
            (fun _ _ => trivial) s
          intro e v s
          exact ((wrapValue_spec depth v s).widen fun t => Grown.extends).imp
            fun w t _ hw _ _ => hw
      | true =>
          refine created_spec (T := False) (P := fun _ => True) (by decide) ?_ fields
            (fun _ _ => trivial) s
          exact fun e v s => framed_pure Extends.refl fun _ h => h.elim
  | hydrate frozen fields =>
      refine created_spec (T := True) (P := Decoded) (fun _ => trivial) ?_ fields hloads s
      intro e v s
      exact ((resolve_spec e depth v s).widen fun t => Grown.extends).imp fun w t _ hw hv _ => hw hv
  | flip captured =>
      -- Every captured entity is settled, and settling is what the event allows for them.
      have hloop := framed_forM htrans hrefl (f := settle depth)
        (P := fun rest _ => ∀ e ∈ rest, e ∈ captured) ?_ captured s fun _ he => he
      · refine framed_bind htrans hloop fun _ t _ _ => framed_modify ?_ trivial
        exact allowed_of_eq rfl rfl
      · intro e rest t ht
        refine (settle_spec depth e (ht e List.mem_cons_self) t).imp fun _ _ _ _ e' he' => ?_
        exact ht e' (List.mem_cons_of_mem e he')
  | unflip e wasNew =>
      cases wasNew with
      | false => exact framed_modify (setState_allowed rfl rfl hdirty) trivial
      | true => exact framed_modify (setState_allowed rfl rfl hnew) trivial
  | swap e f handle =>
      exact framed_modify (setField_allowed (fun _ => tight_atom) (Or.inl rfl) (Or.inl rfl)) trivial
  | markDirty e =>
      refine framed_get_bind ?_
      split_ifs
      · exact framed_throw hrefl
      · exact framed_modify (setState_allowed rfl rfl hdirty) trivial
      · exact framed_pure hrefl trivial
  | delete e =>
      exact framed_modify (setState_allowed rfl rfl hdeleted) trivial
  | close =>
      exact framed_modify (allowed_of_eq rfl rfl) trivial

/-- The events of a run load decoded records. -/
def Loading (events : List (Nat × Event α κ)) : Prop := ∀ event ∈ events, event.2.Loads

/-- The invariant survives a run, and an entity that no event of it settles is as it was. -/
theorem run_spec {X Y : Nat → Prop} (events : List (Nat × Event α κ)) (hloads : Loading events)
    (hX : ∀ event ∈ events, ∀ e, event.2.Settles e → X e)
    (hY : ∀ event ∈ events, ∀ e, event.2.Swaps e → Y e) :
    ∀ s, Allowed X Y s (run s events) := by
  induction events with
  | nil => exact fun s => Allowed.refl X Y s
  | cons event events ih =>
      intro s
      have hrest := ih (fun x hx => hloads x (List.mem_cons_of_mem event hx))
        (fun x hx => hX x (List.mem_cons_of_mem event hx))
        (fun x hx => hY x (List.mem_cons_of_mem event hx))
      refine Allowed.trans X Y s _ _ (fun hs => ?_) (hrest (step s event))
      have hone := (perform_spec event.1 event.2 (hloads event List.mem_cons_self) s).keeps hs
      refine ⟨hone.1, hone.2.narrow (fun e _ he _ hXe => ?_) fun e _ he hYe _ _ => ?_⟩
      · exact absurd (hX event List.mem_cons_self e hXe) he
      · exact absurd (hY event List.mem_cons_self e hYe) he

omit [DecidableEq κ] in
theorem invariant_empty : Invariant ({} : State α κ) := by
  refine ⟨?_, ?_⟩
  · intro n cell owner hn
    cases hn
  · intro e _ f v hf
    cases hf

/-- A state that a program can get to, by any events in any order, as long as what
    is loaded are decoded records. -/
def Reachable (s : State α κ) : Prop := ∃ events, Loading events ∧ s = run {} events

theorem Reachable.invariant {s : State α κ} (hs : Reachable s) : Invariant s := by
  rcases hs with ⟨events, hloads, rfl⟩
  exact (run_spec (X := fun _ => True) (Y := fun _ => True) events hloads
    (fun _ _ _ _ => trivial) (fun _ _ _ _ => trivial) {} invariant_empty).1

/-- Everything that can be read of an entity: its fields, what is reachable from them, and
    what is in there. -/
structure Reads (e : Nat) (s t : State α κ) : Prop where
  fields : ∀ f, t.field e f = s.field e f
  within : ∀ n, Within t e n ↔ Within s e n
  cells : ∀ n, Within s e n → t.cells[n]? = s.cells[n]?

omit [DecidableEq κ] in
/-- An entity reads the same to any depth if its own containers do, as nothing else is
    reachable. -/
theorem Same.reads {s t : State α κ} {e : Nat} (hs : Invariant s) (he : Tracked s e)
    (h : Same e s t) : Reads e s t := by
  have hcells : ∀ n, Within s e n → t.cells[n]? = s.cells[n]? := by
    intro n hn
    rcases Option.bind_eq_some_iff.mp (hs.within he hn) with ⟨cell, hcell, hbound⟩
    rw [hcell]
    exact h.cells n cell hcell hbound
  refine ⟨h.fields, fun n => ⟨fun hn => ?_, fun hn => ?_⟩, hcells⟩
  · induction hn with
    | field hf hv => exact .field ((h.fields _).symm.trans hf) hv
    | cell _ hcell hv hm ih => exact .cell ih ((hcells _ ih).symm.trans hcell) hv hm
  · induction hn with
    | field hf hv => exact .field ((h.fields _).trans hf) hv
    | cell hwithin hcell hv hm ih => exact .cell ih ((hcells _ hwithin).trans hcell) hv hm

theorem decoded_obj (n : Nat) : Decoded (.obj n : Value α) := fun _ h => nomatch h

/-- Two entities are loaded, one of them frozen. -/
def shelf : List (Nat × Event Nat Nat) := [
  (8, .container (.list [.atom 1])),
  (8, .container (.list [.obj 0, .tuple [.obj 0]])),
  (8, .hydrate false [("tags", .obj 1)]),
  (8, .hydrate true [("tags", .obj 0)])]

/-- A third one takes over the list of the first, and is written to through its copy; so is
    the list that was loaded, and the list of the frozen one. -/
def borrowed : List (Nat × Event Nat Nat) := [
  (8, .construct false [("tags", .obj 4)]),
  (8, .mutate false 6 (.put .append (.atom 2))),
  (8, .mutate false 0 (.edit .clear)),
  (8, .mutate false 5 (.edit .clear))]

theorem shelf_reachable : Reachable (run {} shelf) :=
  ⟨shelf, by simp [Loading, shelf, Event.Loads, decoded_obj], rfl⟩

theorem borrowed_loading : Loading borrowed := by
  simp [Loading, borrowed, Event.Loads]

theorem shelf_within : Within (run {} shelf) 0 3 := by
  have hlist : (run {} shelf).cells[4]? =
      some ⟨some (some 0), .list [.obj 2, .tuple [.obj 3]]⟩ := rfl
  have hfield : Within (run {} shelf) 0 4 :=
    .field (f := "tags") (v := .obj 4) rfl (.obj 4)
  exact .cell (v := .tuple [.obj 3]) hfield hlist (List.mem_cons_of_mem _ List.mem_cons_self)
    (.tuple List.mem_cons_self (.obj 3))

omit [DecidableEq κ] in
theorem touchEntity_run {s : State α κ} {e : Nat} (foreign : Bool)
    (hclean : s.stateOf e = some .clean) : touchEntity foreign e s =
      if foreign = true then .error .wrongThread s
      else if s.closed = true then .error .storeClosed s else .ok ⟨⟩ (s.onFirstWrite e) := by
  have hdeleted : ¬ s.stateOf e = some .deleted := by
    rw [hclean]
    decide
  rw [touchEntity, bind_run_ok (get_run s), if_neg hdeleted, if_pos hclean]
  cases foreign with
  | true => rfl
  | false =>
      rw [bind_run_ok ((raiseIf_ok_iff (u := ())).mpr ⟨rfl, rfl⟩)]
      cases s.closed with
      | true => rfl
      | false => rfl

omit [DecidableEq κ] in
theorem touch_run {s : State α κ} {e : Nat} (foreign : Bool)
    (hclean : s.stateOf e = some .clean) : touch foreign (some e) s =
      if s.frozenOf e = true then .error .frozenEntity s
      else if foreign = true then .error .wrongThread s
      else if s.closed = true then .error .storeClosed s else .ok ⟨⟩ (s.onFirstWrite e) := by
  rw [touch, bind_run_ok (get_run s), ← touchEntity_run foreign hclean]
  cases hfrozen : s.frozenOf e with
  | true => simp only [hfrozen, if_true, throw_run]
  | false => simp only [hfrozen, Bool.false_eq_true, if_false]

end Run

end DataCrystal.Containers
