import UtilityCss.Proofs.Table.History
import UtilityCss.Proofs.Variant.Table
import UtilityCss.Utility.Table

/-!
# Registering

What the tables of utilities and of variants do with a registration, and with a freeze. A table of
utilities is asked to take a new utility, or one of its entries once more; a table of variants takes
a definition.

* `UtilityTable.take`: the table after a registration, or the reason why not;
* `UtilityTable.registry`, `VariantTable.registry`: the two kinds of tables as registries;
* `UtilityTable.take_eq_error_iff`: why a table of utilities does not take what it is asked to.
-/

namespace UtilityCss

/-- What a table of utilities is asked to take. -/
inductive Registration where
  | new (utility : Utility)
  /-- An entry once more. -/
  | again (entry : UtilityEntry)

namespace Registration

/-- The name to be registered. -/
def name : Registration → Text
  | new utility => utility.name
  | again entry => entry.name

/-- The entry that is added at a place. -/
def entry (place : Nat) : Registration → UtilityEntry
  | new utility => ⟨place, utility⟩
  | again entry => entry

theorem name_entry (place : Nat) (r : Registration) : (r.entry place).name = r.name := by
  rcases r with _ | _ <;> rfl

end Registration

namespace UtilityTable

variable {t t' : UtilityTable} {r : Registration}

/-- The table after a registration, or the reason why not. -/
def take (t : UtilityTable) : Registration → Except UtilityTableError UtilityTable
  | .new utility => t.register utility
  | .again entry => t.registerAgain entry

theorem take_eq_append (t : UtilityTable) (r : Registration) :
    t.take r = t.append (r.entry t.size) := by
  rcases r with _ | _ <;> rfl

theorem take_eq (t : UtilityTable) (r : Registration) :
    t.take r = if t.frozen then .error .frozen
      else if r.name.isEmpty then .error .emptyName
      else .ok { t with entries := t.entries ++ [r.entry t.size] } := by
  rw [take_eq_append, append, Registration.name_entry]

theorem take_eq_error_iff {reason : UtilityTableError} :
    t.take r = .error reason ↔ (t.frozen = true ∧ reason = .frozen) ∨
      (¬t.frozen = true ∧ r.name = [] ∧ reason = .emptyName) := by
  rw [take_eq]
  simp only [List.isEmpty_iff]
  split_ifs with hfrozen hname
  · rw [Except.error.injEq, eq_comm]
    simp [hfrozen]
  · rw [Except.error.injEq, eq_comm]
    simp [hfrozen, hname]
  · simp [hfrozen, hname]

theorem eq_of_take (h : t.take r = .ok t') :
    t' = { t with entries := t.entries ++ [r.entry t.size] } := by
  rw [take_eq] at h
  split_ifs at h
  cases h
  rfl

theorem frozen_freeze (t : UtilityTable) : t.freeze.frozen = true :=
  rfl

/-- Tables of utilities as a registry. -/
def registry : Registry UtilityTable Registration UtilityTableError where
  empty := empty
  frozen := frozen
  freeze := freeze
  register t r := Registry.orStay t (t.take r)
  refusal := .frozen
  frozen_empty := rfl
  frozen_freeze := frozen_freeze
  freeze_of_frozen {t} h := by
    rw [freeze, ← h]
  frozen_register t r := by
    rcases h : t.take r with reason | t'
    · rfl
    · rw [eq_of_take h]
      rfl
  register_of_frozen {t} r h := by
    rw [take_eq, if_pos h]
    rfl
  register_of_error h := by
    rw [Registry.orStay_eq_error_iff.1 h]
    rfl

end UtilityTable

namespace VariantTable

theorem frozen_freeze (t : VariantTable) : t.freeze.frozen = true :=
  rfl

/-- Tables of variants as a registry. -/
def registry : Registry VariantTable VariantDefinition VariantTableError where
  empty := empty
  frozen := frozen
  freeze := freeze
  register t d := Registry.orStay t (t.register d)
  refusal := .frozen
  frozen_empty := rfl
  frozen_freeze := frozen_freeze
  freeze_of_frozen {t} h := by
    rw [freeze, ← h]
  frozen_register t d := by
    rcases h : t.register d with reason | t'
    · rfl
    · exact frozen_of_register h
  register_of_frozen {t} d h := by
    rw [register_of_frozen h]
    rfl
  register_of_error h := by
    rw [Registry.orStay_eq_error_iff.1 h]
    rfl

end VariantTable

end UtilityCss
