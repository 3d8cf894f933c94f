import Mathlib.Algebra.Ring.Nat
import DataCrystal.Store

/-!
# Discovery

Storing an entity registers everything new that it leads to. The walk is
breadth first with an explicit queue, and it goes through buffered entities
only: one that is in sync with the store leads to nothing new.

An entry of the queue remembers the protected entity it was found in. A
protected entity that is registered there takes over the groups and the floors
of that container, unless its labels were set before; its owner is the acting
principal in any case. What it was given is kept as the baseline the write gate
compares the staged labels with.

The walk is bounded by `registerFuel`: an entry is queued for every reference
of an expanded object, and an object is expanded once.

## Main definitions

* `queueEntity`, `fieldEntities`: What an entity leads to.
* `adoptUnregistered`: An OID for a new entity.
* `stampPermLabels`: The labels a protected entity is born with.
* `registerGraph`: The walk.
* `discoverNewGraphs`: The walk from everything that is buffered.
-/

namespace DataCrystal

/-- The object a reference leads to without a load. -/
def LiveRef.target? : LiveRef → Option Nat
  | .entity o => some o
  | .lazy _ target => target
  | _ => none

/-- The objects a value leads to without a load. -/
def Val.targets (v : Val LiveRef) : List Nat := v.leaves.filterMap LiveRef.target?

namespace Store

/-- An entry of the walk: an object and the protected one it was found in. -/
abbrev Queued := Nat × Option Nat

def isBuffered (s : Store) (oid : Nat) : Bool := s.new.contains oid || s.dirty.contains oid

/-- Queue an entity that is not settled. A field that decodes eagerly must not
    hold a protected one, whether wrapped in a handle or not; a redacted twin is
    refused when its turn comes. -/
def queueEntity (types : Types) (s : Store) (container : Option Nat) (e : Bool × Nat) :
    Except Err (Option Queued) :=
  -- The decode mode of the field decides, not a handle around the value.
  if e.1 && s.isProtected types e.2 && !(s.heap.get e.2).redacted then
    .error .protectedInEagerField
  else
    match (s.heap.get e.2).oid with
    | none => .ok (some (e.2, container))
    -- Settled: committed, and nothing of it buffered.
    | some oid => .ok (if s.isBuffered oid then some (e.2, container) else none)

/-- The objects the fields of an entity lead to, and whether the field is eager. -/
def fieldTargets (types : Types) (s : Store) (o : Nat) : List (Bool × Nat) :=
  (s.info types o).specs.flatMap fun spec =>
    ((s.heap.get o).field spec.name).targets.map fun t => (!spec.lazyRefs, t)

/-- The entities to walk next after `o`; a class without reference fields is
    not looked at. -/
def fieldEntities (types : Types) (s : Store) (o : Nat) : Except Err (List Queued) :=
  if (s.info types o).hasEntityRefs then
    -- Only a protected entity passes its labels on.
    let container := if s.isProtected types o then some o else none
    ((s.fieldTargets types o).mapM (s.queueEntity types container)).map fun found =>
      found.filterMap id
  else .ok []

/-- Give an object the next OID and buffer it as new. -/
def adopt (o : Nat) (s : Store) : Store :=
  { s.modifyEntity o fun e => { e with oid := some s.alloc.nextOid } with
    alloc := { s.alloc with nextOid := s.alloc.nextOid + 1 }
    new := s.new.set s.alloc.nextOid o }

/-- Register an entity that was never stored. A record nobody owns must not
    exist, so the anonymous principal registers no protected one. -/
def adoptUnregistered (types : Types) (p : Principal) (o : Nat) : M Nat := do
  let s ← get
  -- The gate of the commit would refuse it as well, but only later.
  if s.isProtected types o && p.uid = 0 then throw (.writeDenied .anonymousCreate)
  else
    modify (adopt o)
    pure s.alloc.nextOid

/-- Whether the labels of a fresh entity were left as they are at birth. -/
def untouched (l : Labels) : Bool :=
  l.groups.isEmpty && l.readFloor = l.writeFloor && l.writeFloor = viewer

/-- What a protected entity is given when it is registered: the container's
    groups and floors if its own labels are untouched, else nothing. -/
def birthBaseline (p : Principal) (s : Store) (o : Nat) (container : Option Nat) : Labels :=
  match container with
  | some c =>
    -- The owner is who registers it, whatever the container says.
    if untouched (s.heap.get o).labels then { (s.heap.get c).labels with owner := p.uid }
    else ⟨p.uid, [], viewer, viewer⟩
  | none => ⟨p.uid, [], viewer, viewer⟩

/-- The labels a protected entity has after it is registered. -/
def bornLabels (p : Principal) (s : Store) (o : Nat) (container : Option Nat) : Labels :=
  if container.isSome && untouched (s.heap.get o).labels then s.birthBaseline p o container
  else { (s.heap.get o).labels with owner := p.uid }

/-- Stamp the birth labels of a protected entity. -/
def stampPermLabels (p : Principal) (o oid : Nat) (container : Option Nat) (s : Store) : Store :=
  { s.modifyEntity o fun e =>
      { e with labels := s.bornLabels p o container, stampedBy := some p.uid } with
    prestampLabels := s.prestampLabels.set oid (s.heap.get o).labels
    birthLabels := s.birthLabels.set oid (s.birthBaseline p o container) }

/-- The OID of an entity, which is registered if it has none. -/
def oidOrAdopt (types : Types) (p : Principal) (o : Nat) : M Nat := do
  let s ← get
  match (s.heap.get o).oid with
  | some oid => pure oid
  | none => adoptUnregistered types p o

/-- Stamp an entity that was just registered, if it is protected. -/
def stampIfFresh (types : Types) (p : Principal) (e : Queued) (oid : Nat) (fresh : Bool) :
    M Unit := do
  let s ← get
  if fresh && s.isProtected types e.1 then modify (stampPermLabels p e.1 oid e.2) else pure ()

/-- A redacted twin and a deleted entity are refused before they are
    registered. -/
def requireStorable (s : Store) (o : Nat) : Except Err Unit :=
  if s.heap.size ≤ o then .error .notAnEntity
  else if (s.heap.get o).redacted then .error .readDenied
  else if (s.heap.get o).state = .deleted then .error .deletedEntity
  else .ok ()

/-- Go on from a registered entity, unless it has been walked or is settled. -/
def expand (types : Types) (p : Principal) (e : Queued) (walked : List Nat) (oid : Nat)
    (fresh : Bool) : M (List Queued × List Nat) := do
  let s ← get
  -- A cycle comes back to an entity that was walked.
  if walked.contains oid then pure ([], walked)
  -- Only what the next commit writes is followed further.
  else if s.isBuffered oid then
    stampIfFresh types p e oid fresh
    let t ← get
    let found ← ofExcept (t.fieldEntities types e.1)
    pure (found, oid :: walked)
  else pure ([], oid :: walked)

/-- Walk one entry: what it leads to, and what has been walked by then. -/
def registerOne (types : Types) (p : Principal) (e : Queued) (walked : List Nat) :
    M (List Queued × List Nat) := do
  let s ← get
  -- A deleted entity and a redacted twin get no further.
  ofExcept (s.requireStorable e.1)
  let oid ← oidOrAdopt types p e.1
  -- Fresh or not is asked of the state before it got its id.
  expand types p e walked oid (s.heap.get e.1).oid.isNone

def registerLoop (types : Types) (p : Principal) : Nat → List Queued → List Nat → M (List Nat)
  | fuel + 1, e :: queue, walked => do
    let r ← registerOne types p e walked
    registerLoop types p fuel (queue ++ r.1) r.2
  | _, _, walked => pure walked

/-- One entry, and one for every reference of every object. -/
def registerFuel (types : Types) (s : Store) : Nat :=
  ((List.range s.heap.size).map fun o => (s.fieldTargets types o).length).sum + 1

/-- Register an entity and everything new it leads to; `walked` is shared by
    the walks of one commit. -/
def registerGraph (types : Types) (p : Principal) (o : Nat) (walked : List Nat) :
    M (List Nat) := do
  let s ← get
  registerLoop types p (s.registerFuel types) [(o, none)] walked

/-- Register what the buffered entities lead to. -/
def discoverNewGraphs (types : Types) (p : Principal) : M Unit := do
  let s ← get
  let _ ← (s.new.values ++ s.dirty.values).foldlM
    (fun walked o => registerGraph types p o walked) []
  pure ()

end Store

end DataCrystal
