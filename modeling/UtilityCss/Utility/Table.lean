import UtilityCss.Utility.Basic

/-!
# Utility tables

The utilities of a design, in the order of their rules in a stylesheet. Several
entries may bear one name: they are tried in order. An entry may also be registered
again, as the same entry; its place is then the last one it was given.

* `UtilityTable.register`, `UtilityTable.registerAgain`: one more entry at the end,
  or the reason why not;
* `UtilityTable.order`: the place of an entry. Properties in brackets come after all
  entries.
-/

namespace UtilityCss

/-- A registered utility. Entries with the same `mark` are the same entry. -/
structure UtilityEntry where
  mark : Nat
  utility : Utility

/-- The utilities of a design, in order. -/
structure UtilityTable where
  entries : List UtilityEntry
  frozen : Bool

/-- Why a utility is not taken. -/
inductive UtilityTableError where
  | frozen
  | emptyName
  deriving DecidableEq, Repr

namespace UtilityTableError

/-- The wording of an error. -/
def message : UtilityTableError → Text
  | frozen => "UtilityRegistry is frozen"
  | emptyName => "Utility name must not be empty"

end UtilityTableError

namespace UtilityEntry

/-- The name of an entry. -/
def name (e : UtilityEntry) : Text :=
  e.utility.name

end UtilityEntry

namespace UtilityTable

/-- The table without entries. -/
def empty : UtilityTable := ⟨[], false⟩

/-- The number of entries. -/
def size (t : UtilityTable) : Nat :=
  t.entries.length

/-- The entries with a name, in order. -/
def get (t : UtilityTable) (name : Text) : List UtilityEntry :=
  t.entries.filter (·.name = name)

/-- Whether a name has an entry. -/
def contains (t : UtilityTable) (name : Text) : Bool :=
  !(t.get name).isEmpty

/-- Whether some entry with a name can take a value. -/
def takesValue (t : UtilityTable) (name : Text) : Bool :=
  (t.get name).any (·.utility.takesValue)

/-- Whether some entry with a name can stand without a value. -/
def standsBare (t : UtilityTable) (name : Text) : Bool :=
  (t.get name).any (·.utility.standsBare)

/-- The place of an entry: where it was registered last. -/
def order (t : UtilityTable) (e : UtilityEntry) : Nat :=
  t.size - 1 - t.entries.reverse.findIdx (·.mark = e.mark)

/-- The table that takes no more entries. -/
def freeze (t : UtilityTable) : UtilityTable :=
  { t with frozen := true }

/-- The table with one more entry. -/
def append (t : UtilityTable) (e : UtilityEntry) : Except UtilityTableError UtilityTable :=
  if t.frozen then .error .frozen
  else if e.name.isEmpty then .error .emptyName
  else .ok { t with entries := t.entries ++ [e] }

/-- The table with a new entry for a utility. -/
def register (t : UtilityTable) (u : Utility) : Except UtilityTableError UtilityTable :=
  t.append ⟨t.size, u⟩

theorem register_of_frozen {t : UtilityTable} (h : t.frozen = true) (u : Utility) :
    t.register u = .error .frozen := by
  simp [register, append, h]

/-- The table with an entry of it registered again. -/
def registerAgain (t : UtilityTable) (e : UtilityEntry) : Except UtilityTableError UtilityTable :=
  t.append e

/-- Registers utilities one after the other. At the first that is not taken, the
    table holds those before it. -/
def registerAll (t : UtilityTable) :
    List Utility → UtilityTable × Option UtilityTableError
  | [] => (t, none)
  | u :: us =>
    match t.register u with
    | .ok t' => t'.registerAll us
    | .error e => (t, some e)

/-- The frozen table of some utilities with names. -/
def ofUtilities (us : List Utility) : UtilityTable :=
  ⟨us.zipIdx.map fun (u, place) => ⟨place, u⟩, true⟩

/-- A short description: the number of entries, and whether the table is frozen. -/
def describe (t : UtilityTable) : Text :=
  Text.join [] ["UtilityRegistry(entries=", Text.ofNat t.size, ", frozen=",
    if t.frozen then "True" else "False", ")"]

end UtilityTable

end UtilityCss
