import Mathlib.Data.List.Induction

/-!
# Histories of tables

A table takes one item after the other, until it is frozen. The tables of utilities and of variants
differ in what they take, and why they refuse it, but not in this, so it is told once, of every
*registry*: a kind of table, with what registering and freezing have to do with each other.

A *history* is a row of calls on an empty table. A call that fails leaves the table as it is, and
the next one is made nonetheless. What is shown of all histories is shown by induction on the calls,
the last one first.

* `Registry.after_of_error`: a call that fails changes nothing;
* `Registry.frozen_after_iff`, `Registry.after_append_of_freeze`: nothing changes once the table is
  frozen;
* `Registry.taken`: the registrations that succeed;
* `Registry.after_induction`: what is to be shown of all histories;
* `Registry.after_related`: two registries that do the same step by step do the same in all
  histories.
-/

namespace UtilityCss

/-- A call on a table. -/
inductive TableCall (Item : Type) where
  | register (item : Item)
  | freeze

/-- A kind of table that takes items until it is frozen. -/
structure Registry (Table Item Reason : Type) where
  empty : Table
  frozen : Table → Bool
  freeze : Table → Table
  /-- Whether a table takes an item, or why not, and the table that is left. -/
  register : Table → Item → Except Reason Unit × Table
  /-- Why a frozen table takes no item. -/
  refusal : Reason
  frozen_empty : frozen empty = false
  frozen_freeze (t : Table) : frozen (freeze t) = true
  freeze_of_frozen {t : Table} : frozen t = true → freeze t = t
  frozen_register (t : Table) (item : Item) : frozen (register t item).2 = frozen t
  register_of_frozen {t : Table} (item : Item) :
    frozen t = true → (register t item).1 = .error refusal
  register_of_error {t : Table} {item : Item} {reason : Reason} :
    (register t item).1 = .error reason → (register t item).2 = t

namespace Registry

variable {Table Table' Item Reason : Type}

/-- What a registration gives that leaves the table as it is, unless there is a next one. -/
def orStay (t : Table) (result : Except Reason Table) : Except Reason Unit × Table :=
  (result.map fun _ => (), result.toOption.getD t)

theorem orStay_eq_error_iff {t : Table} {result : Except Reason Table} {reason : Reason} :
    (orStay t result).1 = .error reason ↔ result = .error reason := by
  rcases result with _ | _ <;> simp [orStay, Except.map]

theorem eq_ok_of_orStay {t : Table} {result : Except Reason Table}
    (h : (orStay t result).1 = .ok ()) : result = .ok (orStay t result).2 := by
  rcases result with _ | _
  · cases h
  · rfl

variable (R : Registry Table Item Reason)

/-! ## Steps -/

/-- Whether a call succeeds, or why not, and the table that it leaves. -/
def call (t : Table) : TableCall Item → Except Reason Unit × Table
  | .register item => R.register t item
  | .freeze => (.ok (), R.freeze t)

/-- The item that a call adds to a table. -/
def takes? (t : Table) : TableCall Item → Option Item
  | .register item => if (R.register t item).1.isOk then some item else none
  | .freeze => none

variable {R} {t : Table} {c : TableCall Item}

theorem call_of_error {reason : Reason} (h : (R.call t c).1 = .error reason) :
    (R.call t c).2 = t := by
  rcases c with item | _
  · exact R.register_of_error h
  · cases h

theorem call_of_frozen (h : R.frozen t = true) (c : TableCall Item) : (R.call t c).2 = t := by
  rcases c with item | _
  · exact call_of_error (R.register_of_frozen item h)
  · exact R.freeze_of_frozen h

/-- Only a call that freezes a table makes it frozen. -/
theorem frozen_call_iff : R.frozen (R.call t c).2 = true ↔ R.frozen t = true ∨ c = .freeze := by
  rcases c with item | _
  · simp [call, R.frozen_register]
  · simp [call, R.frozen_freeze]

/-! ## Runs -/

variable (R)

/-- The table after some calls, from the empty one on. -/
def after (calls : List (TableCall Item)) : Table :=
  calls.foldl (fun t c => (R.call t c).2) R.empty

/-- The items of the registrations that succeed, in order, from a table on. -/
def takenFrom (t : Table) : List (TableCall Item) → List Item
  | [] => []
  | c :: calls => (R.takes? t c).toList ++ takenFrom (R.call t c).2 calls

/-- The items of the registrations that succeed, in order. -/
def taken (calls : List (TableCall Item)) : List Item :=
  R.takenFrom R.empty calls

variable {R} {calls : List (TableCall Item)}

theorem after_concat (calls : List (TableCall Item)) (c : TableCall Item) :
    R.after (calls ++ [c]) = (R.call (R.after calls) c).2 :=
  List.foldl_append

theorem takenFrom_append (t : Table) (calls more : List (TableCall Item)) :
    R.takenFrom t (calls ++ more) = R.takenFrom t calls
      ++ R.takenFrom (calls.foldl (fun t c => (R.call t c).2) t) more := by
  induction calls generalizing t with
  | nil => rfl
  | cons c calls ih =>
    rw [List.cons_append, takenFrom, ih, takenFrom, List.append_assoc, List.foldl_cons]

theorem taken_concat (calls : List (TableCall Item)) (c : TableCall Item) :
    R.taken (calls ++ [c]) = R.taken calls ++ (R.takes? (R.after calls) c).toList := by
  rw [taken, takenFrom_append, takenFrom, takenFrom, List.append_nil]
  rfl

/-- A call that fails changes nothing. -/
theorem after_of_error {reason : Reason} (h : (R.call (R.after calls) c).1 = .error reason) :
    R.after (calls ++ [c]) = R.after calls := by
  rw [after_concat, call_of_error h]

theorem frozen_after_iff : R.frozen (R.after calls) = true ↔ TableCall.freeze ∈ calls := by
  induction calls using List.reverseRecOn with
  | nil => simp [after, R.frozen_empty]
  | append_singleton calls c ih =>
    rw [after_concat, frozen_call_iff, ih, List.mem_append, List.mem_singleton, eq_comm]

/-- Nothing changes once the table is frozen. -/
theorem after_append_of_freeze (h : TableCall.freeze ∈ calls) (more : List (TableCall Item)) :
    R.after (calls ++ more) = R.after calls := by
  induction more using List.reverseRecOn with
  | nil => rw [List.append_nil]
  | append_singleton more c ih =>
    rw [← List.append_assoc, after_concat, ih, call_of_frozen (frozen_after_iff.2 h)]

/-- What is kept of a table with a history. -/
structure Steady (R : Registry Table Item Reason) (calls : List (TableCall Item)) : Prop where
  /-- A call that fails changes nothing. -/
  of_error {c : TableCall Item} {reason : Reason} :
    (R.call (R.after calls) c).1 = .error reason → R.after (calls ++ [c]) = R.after calls
  /-- Nothing changes once the table is frozen. -/
  of_freeze (more : List (TableCall Item)) :
    .freeze ∈ calls → R.after (calls ++ more) = R.after calls

theorem steady (calls : List (TableCall Item)) : R.Steady calls :=
  ⟨after_of_error, fun more h => after_append_of_freeze h more⟩

/-- What holds of the empty table, and of each table with what it has taken so far, holds after all
    histories. -/
theorem after_induction {P : Table → List Item → Prop} (hempty : P R.empty [])
    (hfreeze : ∀ t items, P t items → P (R.freeze t) items)
    (hregister : ∀ t item items, (R.register t item).1 = .ok () → P t items →
      P (R.register t item).2 (items ++ [item]))
    (calls : List (TableCall Item)) : P (R.after calls) (R.taken calls) := by
  induction calls using List.reverseRecOn with
  | nil => exact hempty
  | append_singleton calls c ih =>
    rw [after_concat, taken_concat]
    rcases c with item | _
    · rw [call, takes?]
      rcases h : (R.register (R.after calls) item).1 with reason | _
      -- A registration that fails adds nothing, and leaves the table for which `ih` was shown.
      · rw [R.register_of_error h]
        exact (List.append_nil (R.taken calls)).symm ▸ ih
      · exact hregister _ _ _ h ih
    · exact (List.append_nil (R.taken calls)).symm ▸ hfreeze _ _ ih

/-- Two registries that do the same step by step do the same in all histories. -/
theorem after_related {S : Registry Table' Item Reason} {Rel : Table → Table' → Prop}
    (hempty : Rel R.empty S.empty)
    (hfreeze : ∀ t t', Rel t t' → Rel (R.freeze t) (S.freeze t'))
    (hregister : ∀ t t' item, Rel t t' → Rel (R.register t item).2 (S.register t' item).2)
    (calls : List (TableCall Item)) : Rel (R.after calls) (S.after calls) := by
  induction calls using List.reverseRecOn with
  | nil => exact hempty
  | append_singleton calls c ih =>
    rw [after_concat, after_concat]
    rcases c with item | _
    · exact hregister _ _ item ih
    · exact hfreeze _ _ ih

end Registry

end UtilityCss
