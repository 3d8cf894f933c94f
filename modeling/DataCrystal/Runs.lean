import DataCrystal.Commit

/-!
# Runs

What can happen to a store directory: operations in any order, each by any
principal, and sessions that end orderly or by a crash.

An operation that raises keeps what it changed by then, and the application may
go on after it, so a step is the state an operation ends in. A session that is
closed leaves the indexes it built in a sidecar, stamped with its watermark; the
next one reads it if it is still at that watermark. The classes may differ from
session to session.

## Main definitions

* `Op`: An operation of a session.
* `World`: A store with the classes of its process and its sidecar.
* `Event`: An operation, or a change of session.
* `World.run`: The world after some events.
-/

namespace DataCrystal

open Store

/-- An operation of a session. -/
inductive Op
  | construct (c : String) (fields : List (String × Val LiveRef))
  | setField (o : Nat) (f : String) (v : Val LiveRef)
  | editUnbound (o : Nat) (f : String) (v : Val LiveRef)
  | setLabel (o : Nat) (w : LabelWrite)
  | setPermissions (o : Nat) (l : Labels)
  | store (o : Nat)
  | markDirty (o : Nat)
  | delete (o : Nat)
  | deleteByKey (c f : String) (v : Val LiveRef)
  | upsert (o : Nat) (f : String)
  | loadRoot
  | setRoot (v : Val LiveRef)
  | load (oid : Nat)
  | getByKey (c f : String) (v : Val LiveRef)
  | actingAs (uid : ℤ)
  | derefHandle (o : Nat) (f : String) (oid : Nat)
  | demoteHandle (o : Nat) (f : String) (oid : Nat)
  /-- A query builds the indexes of the class it is about. -/
  | query (c : String)
  /-- A question for the referrers of an entity builds the reverse index. -/
  | incoming
  | commit (fault : Bool)
  | discard
  /-- Nobody holds the instance of an OID any more. -/
  | forget (oid : Nat)

namespace Store

/-- Run a program for its effect. -/
def effect {α : Type} (m : M α) : M Unit := do
  let _ ← m
  pure ()

end Store

/-- Run an operation for a principal. -/
def Op.run (types : Types) (p : Principal) : Op → M Unit
  | .construct c fields => modify (Store.construct types c fields)
  | .setField o f v => Store.setField types o f v
  -- The one change of a frozen entity that no hook sees.
  | .editUnbound o f v => Store.editUnbound types o f v
  | .setLabel o w => Store.setLabel types o w
  | .setPermissions o l => Store.setPermissions types o l
  | .store o => storeGraph types p o
  | .markDirty o => Store.markDirty types p o
  -- What an operation answers is of no matter to a run of them.
  | .delete o => effect (deleteInstance o)
  | .deleteByKey c f v => effect (Store.deleteByKey types c f v)
  | .upsert o f => Store.upsert types p o f
  | .loadRoot => Store.loadRoot types
  | .setRoot v => Store.setRoot types p v
  | .load oid => effect (loadOid types oid)
  | .getByKey c f v => effect (getByKeyUnchecked types c f v)
  | .actingAs uid => effect (Store.actingAs types uid)
  | .derefHandle o f oid => Store.derefHandle types o f oid
  | .demoteHandle o f oid => Store.demoteHandle o f oid
  -- A query builds the indexes of its class, and changes nothing else.
  | .query c => effect (ensureIndex types c)
  | .incoming => Store.ensureReverse
  | .commit fault => effect (Store.commit types p fault)
  | .discard => modify Store.discard
  | .forget oid => modify (Store.forget oid)

/-- The sidecar of a store directory. -/
structure Sidecar where
  watermark : Nat
  classes : Dict String IndexBlob
  reverse : Option RefEdges

/-- An open store with the classes of its process and the sidecar next to it. -/
structure World where
  types : Types
  store : Store
  sidecar : Option Sidecar := none

/-- An operation by a principal, or the end of a session and the next one with
    the classes of its process. -/
inductive Event
  | act (p : Principal) (op : Op)
  | closeAndOpen (types : Types)
  | crashAndOpen (types : Types)

namespace World

/-- A new store directory. -/
def start (types : Types) : World := { types := types, store := Store.boot none none {} }

/-- What closing a session leaves in the sidecar: nothing new if it built no
    index. -/
def closed (w : World) : Option Sidecar :=
  let blobs := w.store.index.dumpForCache
  if blobs.entries.isEmpty && w.store.index.reverse.isNone then w.sidecar
  else some ⟨w.store.lastTid, blobs, w.store.index.reverse⟩

/-- Open the directory again. A sidecar at another watermark is not used. -/
def reopen (types : Types) (sidecar : Option Sidecar) (b : Backend) : World :=
  let current := sidecar.filter fun c => c.watermark + 1 = b.marks.nextTid
  { types := types
    store := Store.boot (current.map Sidecar.classes) (current.bind Sidecar.reverse) b
    sidecar := sidecar }

def step (w : World) : Event → World
  | .act p op => { w with store := finalState (op.run w.types p w.store) }
  | .closeAndOpen types => reopen types w.closed w.store.backend
  | .crashAndOpen types => reopen types w.sidecar w.store.backend

/-- The world after some events. -/
def run (w : World) (events : List Event) : World := events.foldl step w

end World

end DataCrystal
