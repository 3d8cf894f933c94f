import DataCrystal.Permissions

/-!
# Exceptions

The exceptions the modelled code raises. A raised exception ends the operation
where it stands; what it had changed by then stays changed, and several
properties of the store are about exactly that, so the exceptions are data and
not a single failure.

## Main definitions

* `Err`: The exceptions.
-/

namespace DataCrystal

/-- The exceptions the modelled code raises. -/
inductive Err
  /-- Raised by a comparison or a dictionary lookup. -/
  | value (e : ValueErr)
  | mixedTemporalIndex (field : String)
  /-- A `SortedIndex` field cannot hold a decimal NaN. -/
  | decimalNan (field : String)
  | schemaMismatch (field : String)
  | uniqueViolation (field : String) (holder : Option Nat)
  | writeDenied (d : Denial)
  | readDenied
  | notAnEntity
  | deletedEntity
  | frozenEntity
  | danglingRef (oid : Nat)
  | unknownTypeId (cid : Nat)
  | unregisteredType (typename : String)
  | notUnique (field : String)
  | noneKey (field : String)
  | protectedInEagerField
  | unstorable
  /-- A source of bytes raised while it was read. -/
  | sourceRaised
  /-- A source of bytes does not have the size it declares. -/
  | blobSize
  | escapedDiscovery
  | missingPrior (oid : Nat)
  | rootDelete
  | noSync
  | bufferedWrites
  | contributeDelete
  /-- The storage backend refused the batch and stored nothing. -/
  | backend
  | unknownActor (uid : ℤ)
  | uncommittedActor (uid : ℤ)
  | sponsorRequired (uid : ℤ)
  deriving DecidableEq, Repr

end DataCrystal
