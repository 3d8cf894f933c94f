import DataCrystal.Heap
import DataCrystal.Lib.Framed

/-!
# Containers with an Owner

A write to a field of an entity goes through a hook, a write into a list that a
field holds does not. So the lists and dictionaries that enter a field are
wrapped: they are copied into containers that know the entity they belong to,
down to any depth, and every one of their mutators first makes the entity dirty,
or raises. Two entities never share such a container. A container that is already
bound to the entity is left in place, anything else is copied.

A tuple is rebuilt around what it holds, a named tuple is passed through as it is.
A frozen entity is filled behind its hook, so its containers are plain until the
first commit binds them, and from then on their mutators raise.

A program may hold on to any list it was ever given, so the events here name
containers by address and nothing says how the address was come by. The program
has its own lists too, in which it may put what it likes.

The recursion of `wrap_value` ends at the limit of the interpreter; `depth` is
what is left of it.

## Main definitions

* `Value`, `Cell`, `Entity`, `State`: What there is.
* `wrapValue`: Wrap a value for an owner.
* `touch`: What a mutator does first.
* `mutate`: A mutator of a list or of a dictionary.
* `resolve`: A decoded value as it enters a field.
* `settle`: What a commit does with an entity it has captured.
* `step`, `run`: An event, and a run.
-/

namespace DataCrystal.Containers

/-- A value in a field or a container: a list or a dictionary by its address,
    anything that is neither, nor a tuple, as an atom. -/
inductive Value (α : Type)
  | atom (a : α)
  | obj (n : Nat)
  | tuple (items : List (Value α))
  /-- A named tuple. -/
  | named (items : List (Value α))

/-- The exceptions of a mutation. -/
inductive Raised
  | frozenEntity
  | deletedEntity
  | wrongThread
  | storeClosed
  | recursion
  | index
  | key
  | value
  /-- A mutator of the other kind of container, or of none. -/
  | attribute
  deriving DecidableEq

section State

variable (α κ : Type) [DecidableEq κ]

/-- What a list or a dictionary holds. -/
inductive Body
  | list (items : List (Value α))
  | dict (entries : Dict κ (Value α))

/-- A list or a dictionary. A container of the program is not bound; one that was
    wrapped is bound to its owner, if it has one. -/
structure Cell where
  bound : Option (Option Nat)
  body : Body α κ

/-- An entity. -/
structure Entity where
  frozen : Bool
  state : EntityState
  fields : Dict String (Value α)

/-- The containers and the entities, by address, the entities buffered for the next
    commit, and whether the store has been closed. -/
structure State where
  cells : List (Cell α κ) := []
  entities : List (Entity α) := []
  dirty : List Nat := []
  closed : Bool := false

/-- A program on the state. -/
abbrev M := EStateM Raised (State α κ)

end State

variable {α κ : Type} [DecidableEq κ]

namespace Body

/-- The values a container holds. -/
def values : Body α κ → List (Value α)
  | .list items => items
  | .dict entries => entries.values

end Body

namespace State

def stateOf (s : State α κ) (e : Nat) : Option EntityState := s.entities[e]?.map Entity.state

def frozenOf (s : State α κ) (e : Nat) : Bool := (s.entities[e]?.map Entity.frozen).getD false

/-- The value of a field. -/
def field (s : State α κ) (e : Nat) (f : String) : Option (Value α) :=
  s.entities[e]?.bind fun ent => ent.fields.get? f

/-- The container that an address is bound to. -/
def boundOf (s : State α κ) (n : Nat) : Option (Option Nat) := s.cells[n]?.bind Cell.bound

def modifyEntity (e : Nat) (g : Entity α → Entity α) (s : State α κ) : State α κ :=
  { s with entities := s.entities.modify e g }

def setState (e : Nat) (st : EntityState) (s : State α κ) : State α κ :=
  s.modifyEntity e fun ent => { ent with state := st }

def setField (e : Nat) (f : String) (v : Value α) (s : State α κ) : State α κ :=
  s.modifyEntity e fun ent => { ent with fields := ent.fields.set f v }

def setBody (n : Nat) (body : Body α κ) (s : State α κ) : State α κ :=
  { s with cells := s.cells.modify n fun cell => { cell with body := body } }

/-- `_on_first_write`, past its checks. -/
def onFirstWrite (e : Nat) (s : State α κ) : State α κ :=
  { s.setState e .dirty with dirty := e :: s.dirty }

end State

open State

/-- A new container. -/
def alloc (cell : Cell α κ) : M α κ (Value α) := do
  let s ← get
  set { s with cells := s.cells ++ [cell] }
  pure (.obj s.cells.length)

/-- Each of some entries with another value. -/
def wrapEntries (wrap : Value α → M α κ (Value α)) :
    List (κ × Value α) → M α κ (List (κ × Value α))
  | [] => pure []
  | e :: es => do
    let v ← wrap e.2
    let rest ← wrapEntries wrap es
    pure ((e.1, v) :: rest)

/-- What a container holds, each value made of the one before. -/
def wrapBody (wrap : Value α → M α κ (Value α)) : Body α κ → M α κ (Body α κ)
  | .list items => do
    let items ← items.mapM wrap
    pure (.list items)
  | .dict entries => do
    let entries ← wrapEntries wrap entries.entries
    pure (.dict (Dict.ofList entries))

/-- Wrap a value for an owner. A container of the owner passes through, everything
    else is copied; `depth` is how much deeper the recursion may go. -/
def wrapValue (owner : Option Nat) : Nat → Value α → M α κ (Value α)
  | 0, _ => throw .recursion
  | depth + 1, v =>
    match v with
    | .atom a => pure (.atom a)
    -- Exactly a tuple is rebuilt: a named tuple passes as it is.
    | .named items => pure (.named items)
    | .tuple items => do
      let items ← items.mapM (wrapValue owner depth)
      pure (.tuple items)
    | .obj n => do
      let s ← get
      match s.cells[n]? with
      | none => throw .attribute
      | some cell =>
        -- Bound to this very owner already: no copy.
        if cell.bound = some owner then pure (.obj n)
        else do
          let body ← wrapBody (wrapValue owner depth) cell.body
          alloc ⟨some owner, body⟩

/-- Make an entity dirty before it is written to. A caller on a thread that is not
    the owner's is turned away, but only where there is something to buffer. -/
def touchEntity (foreign : Bool) (e : Nat) : M α κ Unit := do
  let s ← get
  -- A deleted entity is refused on every thread.
  if s.stateOf e = some .deleted then throw .deletedEntity
  else if s.stateOf e = some .clean then do
    -- The thread and the store are asked only where the dirty set changes.
    raiseIf foreign .wrongThread
    raiseIf s.closed .storeClosed
    modify (onFirstWrite e)
  else pure ()

/-- What the mutators of a bound container do first. -/
def touch (foreign : Bool) (owner : Option Nat) : M α κ Unit := do
  let s ← get
  match owner with
  | none => pure ()
  | some e => if s.frozenOf e then throw .frozenEntity else touchEntity foreign e

/-- The position an index stands for, counted from the end if it is negative. -/
def position (length : Nat) (i : ℤ) : Option Nat :=
  let j := if i < 0 then i + length else i
  if 0 ≤ j ∧ j < length then some j.toNat else none

/-- A mutation that takes nothing in. -/
inductive Edit (κ : Type)
  /-- `pop(i)`, `del xs[i]`. -/
  | deleteAt (i : ℤ)
  /-- `remove(x)`, where `x` is found. -/
  | remove (found : Option Nat)
  /-- `del xs[a:b]`: the positions of the slice. -/
  | deleteSlice (positions : List Nat)
  | clear
  /-- `sort()`: the order the items are put in. -/
  | sort (order : List Nat)
  | reverse
  /-- `xs *= n`. -/
  | repeated (count : ℤ)
  | deleteKey (k : κ)
  /-- `pop(k, default)`. -/
  | discardKey (k : κ)
  | popitem

/-- Where a mutation puts a value. -/
inductive Place (κ : Type)
  | append
  | insert (i : ℤ)
  | setAt (i : ℤ)
  | setKey (k : κ)

namespace Edit

/-- The mutation of the built-in container. -/
def perform (edit : Edit κ) (body : Body α κ) : Except Raised (Body α κ) :=
  match edit, body with
  -- `del xs[i]` and `pop`; the value `remove` is after was looked up before.
  | .deleteAt i, .list items =>
    match position items.length i with
    | none => .error .index
    | some j => .ok (.list (items.eraseIdx j))
  | .remove found, .list items =>
    match found with
    | none => .error .value
    | some j => .ok (.list (items.eraseIdx j))
  | .deleteSlice positions, .list items =>
    .ok (.list ((items.zipIdx.filter fun x => !positions.contains x.2).map Prod.fst))
  | .clear, .list _ => .ok (.list [])
  -- The order is the one `list.sort` arrives at for its key.
  | .sort order, .list items => .ok (.list (order.filterMap fun i => items[i]?))
  | .reverse, .list items => .ok (.list items.reverse)
  | .repeated count, .list items => .ok (.list (List.replicate count.toNat items).flatten)
  | .clear, .dict _ => .ok (.dict Dict.empty)
  | .deleteKey k, .dict entries =>
    if entries.contains k then .ok (.dict (entries.erase k)) else .error .key
  | .discardKey k, .dict entries => .ok (.dict (entries.erase k))
  -- A dictionary gives up its last entry first.
  | .popitem, .dict entries =>
    match entries.entries.getLast? with
    | none => .error .key
    | some e => .ok (.dict (entries.erase e.1))
  | _, _ => .error .attribute

end Edit

namespace Place

/-- Put a value into the built-in container. -/
def perform (place : Place κ) (v : Value α) (body : Body α κ) : Except Raised (Body α κ) :=
  match place, body with
  | .append, .list items => .ok (.list (items ++ [v]))
  | .insert i, .list items =>
    -- A negative index counts from the end and stops at the front.
    let j := if i < 0 then (i + items.length).toNat else i.toNat
    .ok (.list (items.take j ++ v :: items.drop j))
  | .setAt i, .list items =>
    match position items.length i with
    | none => .error .index
    | some j => .ok (.list (items.set j v))
  | .setKey k, .dict entries => .ok (.dict (entries.set k v))
  | _, _ => .error .attribute

end Place

/-- A call of a mutator. -/
inductive Mutation (α κ : Type)
  | edit (edit : Edit κ)
  | put (place : Place κ) (v : Value α)
  /-- `extend`, `+=`, `update`, `|=`: one value after the other. -/
  | putAll (entries : List (Place κ × Value α))
  /-- `xs[a:b] = vs`. -/
  | setSlice (start stop : Nat) (vs : List (Value α))
  /-- `xs[a:b:c] = vs`: the positions of the slice. -/
  | setSteps (positions : List Nat) (vs : List (Value α))
  | setdefault (k : κ) (v : Value α)

/-- `xs[a:b] = vs` on the built-in list. -/
def setSlice (start stop : Nat) (vs : List (Value α)) (body : Body α κ) :
    Except Raised (Body α κ) :=
  match body with
  | .list items => .ok (.list (items.take start ++ vs ++ items.drop (max start stop)))
  | .dict _ => .error .attribute

/-- `xs[a:b:c] = vs` on the built-in list. -/
def setSteps (positions : List Nat) (vs : List (Value α)) (body : Body α κ) :
    Except Raised (Body α κ) :=
  match body with
  | .list items =>
    -- A stepped slice keeps the length.
    if positions.length = vs.length then
      .ok (.list ((positions.zip vs).foldl (fun acc x => acc.set x.1 x.2) items))
    else .error .value
  | .dict _ => .error .attribute

/-- Change what a container holds, as the built-in container would. -/
def editCell (n : Nat) (g : Body α κ → Except Raised (Body α κ)) : M α κ Unit := do
  let s ← get
  match s.cells[n]? with
  | none => throw .attribute
  | some cell =>
    let body ← ofExcept (g cell.body)
    modify (setBody n body)

/-- A mutator, with what it does to the values it takes in. -/
def performWith (wrap : Value α → M α κ (Value α)) (n : Nat) : Mutation α κ → M α κ Unit
  | .edit edit => editCell n edit.perform
  -- One value: it is wrapped before the container changes.
  | .put place v => do
    let v ← wrap v
    editCell n (place.perform v)
  -- `extend` and `update` take the values in one by one, so a failure in the middle leaves the
  -- earlier ones behind.
  | .putAll entries => entries.forM fun e => do
    let v ← wrap e.2
    editCell n (e.1.perform v)
  -- A slice assignment wraps all its values first.
  | .setSlice start stop vs => do
    let vs ← vs.mapM wrap
    editCell n (setSlice start stop vs)
  | .setSteps positions vs => do
    let vs ← vs.mapM wrap
    editCell n (setSteps positions vs)
  | .setdefault k v => do
    let v ← wrap v
    editCell n ((Place.setKey k).perform v)

/-- Whether a call has nothing to do: `setdefault` of a key that is there. -/
def Mutation.idle (mutation : Mutation α κ) (body : Body α κ) : Bool :=
  match mutation, body with
  | .setdefault k _, .dict entries => entries.contains k
  | _, _ => false

/-- A mutator of a container. A bound one is touched first and wraps what it takes
    in. -/
def mutate (depth : Nat) (foreign : Bool) (n : Nat) (mutation : Mutation α κ) : M α κ Unit := do
  let s ← get
  match s.cells[n]? with
  | none => throw .attribute
  | some cell =>
    -- `setdefault` of a key that is there reads only.
    if mutation.idle cell.body then pure ()
    else
      -- No owner: the built-in mutation, with nothing to wrap for.
      match cell.bound with
      | none => performWith pure n mutation
      | some owner => do
        -- The owner turns dirty, or refuses, before anything moves.
        touch foreign owner
        performWith (wrapValue owner depth) n mutation

/-- A write to a field. -/
def setattr (depth : Nat) (foreign : Bool) (e : Nat) (f : String) (v : Value α) : M α κ Unit := do
  let s ← get
  if s.frozenOf e then throw .frozenEntity
  else do
    touchEntity foreign e
    -- The wrap is behind the hook: a value that cannot be wrapped leaves the entity dirty.
    let v ← wrapValue (some e) depth v
    modify (setField e f v)

/-- A decoded value as it enters a field: the lists and dictionaries of the record
    become containers of the entity. -/
def resolve (owner : Nat) : Nat → Value α → M α κ (Value α)
  | 0, _ => throw .recursion
  | depth + 1, v =>
    match v with
    | .obj n => do
      let s ← get
      match s.cells[n]? with
      | none => throw .attribute
      | some cell =>
        let body ← wrapBody (fun item => do
          let item ← resolve owner depth item
          wrapValue (some owner) depth item) cell.body
        alloc ⟨some (some owner), body⟩
    -- A tuple of the record is handed on with what it holds unwrapped.
    | v => pure v

/-- The fields of an entity, one after the other. -/
def fillFields (e : Nat) (make : Value α → M α κ (Value α)) (fields : List (String × Value α)) :
    M α κ Unit :=
  fields.forM fun x => do
    let v ← make x.2
    modify (setField e x.1 v)

/-- A new entity. -/
def newEntity (frozen : Bool) (st : EntityState) : M α κ Nat := do
  let s ← get
  set { s with entities := s.entities ++ [(⟨frozen, st, Dict.empty⟩ : Entity α)] }
  pure s.entities.length

/-- What the third phase of a commit does with a captured entity. -/
def settle (depth : Nat) (e : Nat) : M α κ Unit := do
  let s ← get
  -- A frozen entity gets its containers now that it is durable.
  if s.frozenOf e then do
    let fields := ((s.entities[e]?.map Entity.fields).getD Dict.empty).entries
    fillFields e (wrapValue (some e) depth) fields
    modify (setState e .clean)
  else modify (setState e .clean)

/-- An event. -/
inductive Event (α κ : Type) [DecidableEq κ]
  /-- A list or a dictionary of the program. -/
  | container (body : Body α κ)
  /-- A container that is bound to nobody. -/
  | detached (body : Body α κ)
  | mutate (foreign : Bool) (n : Nat) (mutation : Mutation α κ)
  | setattr (foreign : Bool) (e : Nat) (f : String) (v : Value α)
  | construct (frozen : Bool) (fields : List (String × Value α))
  /-- A record is loaded, its values decoded into containers of their own. -/
  | hydrate (frozen : Bool) (fields : List (String × Value α))
  /-- A commit flips the captured entities. -/
  | flip (captured : List Nat)
  /-- A commit that fails puts a captured entity back. -/
  | unflip (e : Nat) (wasNew : Bool)
  /-- A commit is through and puts the handle of a blob where its bytes were. -/
  | swap (e : Nat) (f : String) (handle : α)
  | markDirty (e : Nat)
  | delete (e : Nat)
  | close

/-- The program of an event. -/
def perform (depth : Nat) : Event α κ → M α κ Unit
  | .container body => do
    let _ ← alloc ⟨none, body⟩
    pure ()
  | .detached body => do
    let body ← wrapBody (wrapValue none depth) body
    let _ ← alloc ⟨some none, body⟩
    pure ()
  | .mutate foreign n mutation => Containers.mutate depth foreign n mutation
  | .setattr foreign e f v => Containers.setattr depth foreign e f v
  -- A frozen entity keeps its fields as they were given.
  | .construct frozen fields => do
    let e ← newEntity frozen .new
    fillFields e (if frozen then pure else wrapValue (some e) depth) fields
  -- A record that is read: the containers are made for this entity.
  | .hydrate frozen fields => do
    let e ← newEntity frozen .clean
    fillFields e (resolve e depth) fields
  -- The end of the first phase: what was encoded is clean again.
  | .flip captured => do
    captured.forM (settle depth)
    modify fun s => { s with dirty := [] }
  -- A failed commit: a new entity stays new, any other is dirty again.
  | .unflip e wasNew =>
    if wasNew then modify fun s => { s.setState e .new with dirty := s.dirty.erase e }
    else modify (onFirstWrite e)
  -- The blob handle of a commit goes in without the hook.
  | .swap e f handle => modify (setField e f (.atom handle))
  | .markDirty e => do
    let s ← get
    if s.stateOf e = some .deleted then throw .deletedEntity
    else if s.stateOf e = some .clean then modify (onFirstWrite e)
    else pure ()
  | .delete e => modify fun s => { s.setState e .deleted with dirty := s.dirty.erase e }
  | .close => modify fun s => { s with closed := true }

/-- An event, and how deep the recursion may go there; one that raises keeps what it
    has done before. -/
def step (s : State α κ) (event : Nat × Event α κ) : State α κ :=
  finalState (perform event.1 event.2 s)

/-- A run. -/
def run (s : State α κ) (events : List (Nat × Event α κ)) : State α κ := events.foldl step s

end DataCrystal.Containers
