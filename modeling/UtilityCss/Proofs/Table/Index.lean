import Mathlib.Logic.Function.Basic
import UtilityCss.Proofs.Table.Keys
import UtilityCss.Proofs.Table.Registration
import UtilityCss.Proofs.Utility.Table

/-!
# Tables with an index

A table is one list, and what is looked up in it is found by going through it. The same can be kept
ready in an *index*, which a registration changes piece by piece: the entries in their order, the
entries of each name, and the place of each entry. The pieces have to stay in step with one another,
also when registrations fail in between, names come again, or an entry is registered again. They do:
after every history, each piece gives what is found in the table.

* `UtilityIndex`, `VariantIndex`: the pieces for the two kinds of tables, and how a registration
  changes them;
* `UtilityIndex.run_register`, `VariantIndex.run_register`: a registration that fails changes no
  piece, and one that succeeds changes them all;
* `UtilityIndex.IsIndexOf`, `VariantIndex.IsIndexOf`: each piece gives what is found in the table;
* `UtilityIndex.isIndexOf_after`, `VariantIndex.isIndexOf_after`: so it is after every history.
-/

namespace UtilityCss

open Registry

/-! ## Utilities -/

/-- The entries of each name, and the last place of each mark, beside the row of all entries. -/
structure UtilityIndex where
  entries : List UtilityEntry
  byName : OrderedMap (List UtilityEntry)
  places : Nat → Option Nat
  frozen : Bool

namespace UtilityIndex

variable {x : UtilityIndex} {t : UtilityTable}

/-- The entries of a name. -/
def get (x : UtilityIndex) (name : Text) : List UtilityEntry :=
  (x.byName.get? name).getD []

/-- The index after an entry is given the next place. -/
def place (x : UtilityIndex) (e : UtilityEntry) : UtilityIndex :=
  { x with places := Function.update x.places e.mark (some x.entries.length) }

/-- The index with an entry at the end of the row. -/
def append (x : UtilityIndex) (e : UtilityEntry) : UtilityIndex :=
  { x with entries := x.entries ++ [e] }

/-- The index with one more entry of its name. -/
def classify (x : UtilityIndex) (e : UtilityEntry) : UtilityIndex :=
  { x with byName := x.byName.insert e.name (x.get e.name ++ [e]) }

/-- Registers a utility, or an entry again. -/
def register (r : Registration) : ExceptT UtilityTableError (StateM UtilityIndex) Unit := do
  let x ← getThe UtilityIndex
  if x.frozen then throw .frozen
  else if r.name.isEmpty then throw .emptyName
  else
    let e := r.entry x.entries.length
    modifyThe UtilityIndex (·.place e)
    modifyThe UtilityIndex (·.append e)
    modifyThe UtilityIndex (·.classify e)

/-- The index with one more entry. -/
def add (x : UtilityIndex) (e : UtilityEntry) : UtilityIndex :=
  ((x.place e).append e).classify e

theorem run_register (x : UtilityIndex) (r : Registration) :
    (register r).run.run x =
      if x.frozen then (.error .frozen, x)
      else if r.name.isEmpty then (.error .emptyName, x)
      else (.ok (), x.add (r.entry x.entries.length)) := by
  change
    (ite (x.frozen = true) _ _ : ExceptT UtilityTableError (StateM UtilityIndex) _).run.run x = _
  split_ifs <;> rfl

/-- Indices of utilities as a registry. -/
def registry : Registry UtilityIndex Registration UtilityTableError where
  empty := ⟨[], .empty, fun _ => none, false⟩
  frozen := frozen
  freeze x := { x with frozen := true }
  register x r := (register r).run.run x
  refusal := .frozen
  frozen_empty := rfl
  frozen_freeze _ := rfl
  freeze_of_frozen {x} h := by
    rw [← h]
  frozen_register x r := by
    rw [run_register]
    split_ifs <;> rfl
  register_of_frozen {x} r h := by
    rw [run_register, if_pos h]
  register_of_error {x r reason} h := by
    rw [run_register] at h ⊢
    split_ifs at h ⊢ <;> rfl

/-- The index gives what is looked up in a table. -/
structure IsIndexOf (x : UtilityIndex) (t : UtilityTable) : Prop where
  entries : x.entries = t.entries
  frozen : x.frozen = t.frozen
  byName (name : Text) : x.byName.get? name = if t.get name = [] then none else some (t.get name)
  places (e : UtilityEntry) :
    x.places e.mark = if t.entries.any (·.mark = e.mark) then some (t.order e) else none

namespace IsIndexOf

theorem length_entries (h : x.IsIndexOf t) : x.entries.length = t.size := by
  rw [h.entries, UtilityTable.size]

theorem get (h : x.IsIndexOf t) (name : Text) : x.get name = t.get name := by
  rw [UtilityIndex.get, h.byName]
  split_ifs with hnil
  · exact hnil.symm
  · rfl

theorem contains (h : x.IsIndexOf t) (name : Text) :
    x.byName.contains name = t.contains name := by
  rw [OrderedMap.contains, h.byName, UtilityTable.contains]
  split_ifs with hnil
  · rw [hnil]
    rfl
  · rw [List.isEmpty_eq_false_iff.2 hnil]
    rfl

theorem add (h : x.IsIndexOf t) (e : UtilityEntry) :
    (x.add e).IsIndexOf { t with entries := t.entries ++ [e] } where
  entries := congrArg (· ++ [e]) h.entries
  frozen := h.frozen
  byName name := by
    have hget : ((x.place e).append e).get e.name = t.get e.name := h.get e.name
    have hbyName : ((x.place e).append e).byName.get? name = _ := h.byName name
    rw [UtilityIndex.add, classify, OrderedMap.get?_insert, UtilityTable.get_append, hget, hbyName]
    by_cases hname : e.name = name
    · simp [hname]
    · rw [if_neg (Ne.symm hname), if_neg hname]
  places e' := by
    have hplaces : (x.add e).places e'.mark
        = if e'.mark = e.mark then some x.entries.length else x.places e'.mark :=
      Function.update_apply ..
    rw [hplaces, UtilityTable.order_append, h.places, h.length_entries, List.any_append]
    by_cases hmark : e.mark = e'.mark
    · simp [hmark]
    · simp [hmark, Ne.symm hmark]

/-- Index and table do the same with a registration, and give the same answer. -/
theorem register (h : x.IsIndexOf t) (r : Registration) :
    (registry.register x r).1 = (UtilityTable.registry.register t r).1 ∧
      (registry.register x r).2.IsIndexOf (UtilityTable.registry.register t r).2 := by
  change ((UtilityIndex.register r).run.run x).1 = (orStay t (t.take r)).1 ∧
    ((UtilityIndex.register r).run.run x).2.IsIndexOf (orStay t (t.take r)).2
  rw [run_register, UtilityTable.take_eq, h.frozen, h.length_entries]
  split_ifs
  · exact ⟨rfl, h⟩
  · exact ⟨rfl, h⟩
  · exact ⟨rfl, h.add _⟩

end IsIndexOf

/-- An index that is kept step by step is the index of the table. -/
theorem isIndexOf_after (calls : List (TableCall Registration)) :
    (registry.after calls).IsIndexOf (UtilityTable.registry.after calls) :=
  after_related ⟨rfl, rfl, fun _ => rfl, fun _ => rfl⟩
    (fun _ _ h => ⟨h.entries, rfl, h.byName, h.places⟩) (fun _ _ r h => (h.register r).2) calls

end UtilityIndex

/-! ## Variants -/

/-- The definition of each name, in the order of the table, and beside it the place of each name. -/
structure VariantIndex where
  definitions : OrderedMap VariantDefinition
  places : Text → Option Nat
  frozen : Bool

namespace VariantIndex

variable {x : VariantIndex} {t : VariantTable} {d : VariantDefinition}

/-- The index after a name is given the next place. -/
def place (x : VariantIndex) (name : Text) : VariantIndex :=
  { x with places := Function.update x.places name (some x.definitions.size) }

/-- The index with one more definition. -/
def define (x : VariantIndex) (d : VariantDefinition) : VariantIndex :=
  { x with definitions := x.definitions.insert d.name d }

/-- Registers a definition. -/
def register (d : VariantDefinition) : ExceptT VariantTableError (StateM VariantIndex) Unit := do
  let x ← getThe VariantIndex
  if x.frozen then throw .frozen
  else if d.name.isEmpty then throw .emptyName
  else if x.definitions.contains d.name then throw (.duplicate d.name)
  else
    modifyThe VariantIndex (·.place d.name)
    modifyThe VariantIndex (·.define d)

theorem run_register (x : VariantIndex) (d : VariantDefinition) :
    (register d).run.run x =
      if x.frozen then (.error .frozen, x)
      else if d.name.isEmpty then (.error .emptyName, x)
      else if x.definitions.contains d.name then (.error (.duplicate d.name), x)
      else (.ok (), (x.place d.name).define d) := by
  change
    (ite (x.frozen = true) _ _ : ExceptT VariantTableError (StateM VariantIndex) _).run.run x = _
  split_ifs <;> rfl

/-- Indices of variants as a registry. -/
def registry : Registry VariantIndex VariantDefinition VariantTableError where
  empty := ⟨.empty, fun _ => none, false⟩
  frozen := frozen
  freeze x := { x with frozen := true }
  register x d := (register d).run.run x
  refusal := .frozen
  frozen_empty := rfl
  frozen_freeze _ := rfl
  freeze_of_frozen {x} h := by
    rw [← h]
  frozen_register x d := by
    rw [run_register]
    split_ifs <;> rfl
  register_of_frozen {x} d h := by
    rw [run_register, if_pos h]
  register_of_error {x d reason} h := by
    rw [run_register] at h ⊢
    split_ifs at h ⊢ <;> rfl

/-- The index gives what is looked up in a table. -/
structure IsIndexOf (x : VariantIndex) (t : VariantTable) : Prop where
  definitions : x.definitions.entries = t.definitions.map fun d => (d.name, d)
  frozen : x.frozen = t.frozen
  places (name : Text) :
    x.places name = if t.contains name then some (t.order name) else none

namespace IsIndexOf

theorem size_definitions (h : x.IsIndexOf t) : x.definitions.size = t.size := by
  rw [OrderedMap.size, h.definitions, List.length_map, VariantTable.size]

theorem get?_definitions (h : x.IsIndexOf t) (name : Text) :
    x.definitions.get? name = t.find? name := by
  rw [OrderedMap.get?, h.definitions, VariantTable.find?]
  induction t.definitions with
  | nil => rfl
  | cons d ds ih =>
    rw [List.map_cons, OrderedMap.lookup_cons, ih, List.find?_cons]
    by_cases hname : d.name = name
    · simp [hname]
    · simp [hname, Ne.symm hname]

theorem contains_definitions (h : x.IsIndexOf t) (name : Text) :
    x.definitions.contains name = t.contains name := by
  rw [OrderedMap.contains, h.get?_definitions, VariantTable.contains]

theorem define (h : x.IsIndexOf t) (hnew : ¬t.contains d.name = true) :
    ((x.place d.name).define d).IsIndexOf { t with definitions := t.definitions ++ [d] } where
  definitions := by
    have hkey : d.name ∉ x.definitions.keys := by
      rwa [← OrderedMap.contains_iff, h.contains_definitions]
    change (x.definitions.insert d.name d).entries = _
    rw [OrderedMap.entries_insert_of_not_mem hkey, h.definitions, List.map_append,
      List.map_singleton]
  frozen := h.frozen
  places name := by
    have hplaces : ((x.place d.name).define d).places name
        = if name = d.name then some x.definitions.size else x.places name :=
      Function.update_apply ..
    rw [hplaces, VariantTable.order_append, VariantTable.contains_append, h.places,
      h.size_definitions]
    by_cases hname : d.name = name
    · subst hname
      simp [hnew]
    · by_cases hknown : t.contains name = true <;> simp [hname, Ne.symm hname, hknown]

/-- Index and table do the same with a registration, and give the same answer. -/
theorem register (h : x.IsIndexOf t) (d : VariantDefinition) :
    (registry.register x d).1 = (VariantTable.registry.register t d).1 ∧
      (registry.register x d).2.IsIndexOf (VariantTable.registry.register t d).2 := by
  change ((VariantIndex.register d).run.run x).1 = (orStay t (t.register d)).1 ∧
    ((VariantIndex.register d).run.run x).2.IsIndexOf (orStay t (t.register d)).2
  rw [run_register, VariantTable.register, h.frozen, h.contains_definitions]
  split_ifs with _ _ hcontains
  · exact ⟨rfl, h⟩
  · exact ⟨rfl, h⟩
  · exact ⟨rfl, h⟩
  · exact ⟨rfl, h.define hcontains⟩

end IsIndexOf

/-- An index that is kept step by step is the index of the table. -/
theorem isIndexOf_after (calls : List (TableCall VariantDefinition)) :
    (registry.after calls).IsIndexOf (VariantTable.registry.after calls) :=
  after_related ⟨rfl, rfl, fun _ => rfl⟩ (fun _ _ h => ⟨h.definitions, rfl, h.places⟩)
    (fun _ _ d h => (h.register d).2) calls

end VariantIndex

end UtilityCss
