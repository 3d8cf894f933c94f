import DataCrystal.Schema

/-!
# The Classes of a Process

The entity classes a process has declared, by name, and the two the library
declares itself: the holder of the root value, and the registry of actors.

An actor is a protected record that says who may act. Its memberships are
authority: acting as a uid yields the memberships of the committed row with
that uid.

## Main definitions

* `Types`: The classes declared in a process.
* `rootInfo`, `actorInfo`: The library's own classes.
* `Types.info`, `Types.known`: The class of a name.
* `Val.toLevels`: The memberships a field holds.
-/

namespace DataCrystal

/-- The classes declared in a process, by name. -/
abbrev Types := String → Option TypeInfo

/-- The name of the class that holds the root value. -/
def rootCls : String := "datacrystal._store:_Root"

/-- The name of the class of actors. -/
def actorCls : String := "datacrystal._actors:Actor"

def rootInfo : TypeInfo :=
  { dataSpecs := [{ name := "value" }], defaults := [("value", .none)] }

def actorInfo : TypeInfo where
  dataSpecs :=
    -- One key in the registry, one subject for the identity provider.
    [{ name := "uid", unique := true, entityRef := false },
     { name := "subject", indexed := true, entityRef := false },
     { name := "display", entityRef := false },
     { name := "human", entityRef := false },
     { name := "sponsor", entityRef := false },
     { name := "memberships", entityRef := false }]
  defaults :=
    [("subject", .scalar (.str "")), ("display", .scalar (.str "")), ("human", .bool false),
     ("sponsor", .none), ("memberships", .dict [])]
  isProtected := true

namespace Types

/-- The class of a name; a class nobody declared has no field. -/
def info (types : Types) (c : String) : TypeInfo :=
  if c = rootCls then rootInfo
  else if c = actorCls then actorInfo
  else (types c).getD default

/-- The class a name stands for, if it is declared. -/
def known (types : Types) (c : String) : Option TypeInfo :=
  if c = rootCls then some rootInfo else if c = actorCls then some actorInfo else types c

@[simp]
theorem info_root (types : Types) : types.info rootCls = rootInfo := if_pos rfl

@[simp]
theorem info_actor (types : Types) : types.info actorCls = actorInfo := by
  rw [info, if_neg (by decide), if_pos rfl]

end Types

/-- The levels by group that a memberships field holds. -/
def Val.toLevels {ρ : Type} : Val ρ → Dict ℤ ℤ
  | .dict entries => Dict.ofList (entries.filterMap fun e =>
      match e.1.toInt?, e.2.toInt? with
      | some g, some lvl => some (g, lvl)
      | _, _ => Option.none)
  | _ => Dict.empty

end DataCrystal
