import UtilityCss.Text.Quoted
import UtilityCss.Variant.Wrap

/-!
# Variant tables

The variants of a design, by name, in cascade order: what is registered later gives
rules that come later. A table takes a name once, and nothing more once it is
frozen.

* `VariantTable.register`: one more definition at the end, or the reason why not;
* `VariantTable.order`: the place of a name; unknown names come after all others.
-/

namespace UtilityCss

/-- What a compound root does, with the group that its modifier names. -/
structure CompoundRoot where
  /-- The wrap around the wrap of the variant inside. -/
  compound? : Wrap → Option Text → Option Wrap
  /-- The wrap around a bracketed selector, if one may stand for the inner variant. -/
  ofSelector? : Option (Text → Option Text → Option Wrap)

namespace CompoundRoot

/-- Whether a bracketed selector may stand for the inner variant. -/
def takesSelector (root : CompoundRoot) : Bool :=
  root.ofSelector?.isSome

/-- The wrap around a bracketed selector. -/
def arbitrary? (root : CompoundRoot) (selector : Text) (modifier : Option Text) : Option Wrap :=
  root.ofSelector?.bind fun ofSelector? => ofSelector? selector modifier

end CompoundRoot

/-- What a variant of the table does. -/
inductive VariantBehavior where
  /-- Always the same wrap. `compounds` says whether it may stand inside a compound
      root. -/
  | fixed (wrap : Wrap) (compounds : Bool)
  /-- A wrap by argument and modifier; `values` are the arguments known by name. -/
  | functional (wrap? : Argument → Option Text → Option Wrap) (values : List Text)
  /-- A compound root. -/
  | compound (root : CompoundRoot)

/-- A named variant of the table. -/
structure VariantDefinition where
  name : Text
  behavior : VariantBehavior

/-- The variants of a design, in cascade order. -/
structure VariantTable where
  definitions : List VariantDefinition
  frozen : Bool

/-- Why a definition is not taken. -/
inductive VariantTableError where
  | frozen
  | emptyName
  | duplicate (name : Text)
  deriving DecidableEq, Repr

namespace VariantTableError

/-- The wording of an error. -/
def message : VariantTableError → Text
  | frozen => "VariantRegistry is frozen"
  | emptyName => "Variant name must not be empty"
  | duplicate name => "Duplicate variant: ".toList ++ name.quoted

end VariantTableError

namespace VariantTable

/-- The table without definitions. -/
def empty : VariantTable := ⟨[], false⟩

/-- The definition of a name. -/
def find? (t : VariantTable) (name : Text) : Option VariantDefinition :=
  t.definitions.find? (·.name = name)

/-- Whether a name is defined. -/
def contains (t : VariantTable) (name : Text) : Bool :=
  (t.find? name).isSome

/-- What the variant with a name does. -/
def behavior? (t : VariantTable) (name : Text) : Option VariantBehavior :=
  (t.find? name).map (·.behavior)

/-- The number of definitions. -/
def size (t : VariantTable) : Nat :=
  t.definitions.length

/-- The place of a name in cascade order. -/
def order (t : VariantTable) (name : Text) : Nat :=
  t.definitions.findIdx (·.name = name)

/-- The table that takes no more definitions. -/
def freeze (t : VariantTable) : VariantTable :=
  { t with frozen := true }

/-- The table with one more definition. -/
def register (t : VariantTable) (d : VariantDefinition) : Except VariantTableError VariantTable :=
  if t.frozen then .error .frozen
  else if d.name.isEmpty then .error .emptyName
  else if t.contains d.name then .error (.duplicate d.name)
  else .ok { t with definitions := t.definitions ++ [d] }

theorem register_of_frozen {t : VariantTable} (h : t.frozen = true) (d : VariantDefinition) :
    t.register d = .error .frozen := by
  simp [register, h]

/-- Registers definitions one after the other. At the first that is not taken, the
    table holds those before it. -/
def registerAll (t : VariantTable) :
    List VariantDefinition → VariantTable × Option VariantTableError
  | [] => (t, none)
  | d :: ds =>
    match t.register d with
    | .ok t' => t'.registerAll ds
    | .error e => (t, some e)

/-- The frozen table of some definitions. -/
def build (ds : List VariantDefinition) : Except VariantTableError VariantTable :=
  match empty.registerAll ds with
  | (t, none) => .ok t.freeze
  | (_, some e) => .error e

theorem definitions_of_register {t t' : VariantTable} {d : VariantDefinition}
    (h : t.register d = .ok t') : t'.definitions = t.definitions ++ [d] := by
  unfold register at h
  split at h
  · cases h
  · split at h
    · cases h
    · split at h
      · cases h
      · cases h
        rfl

theorem definitions_of_registerAll {t t' : VariantTable} {ds : List VariantDefinition}
    (h : t.registerAll ds = (t', none)) : t'.definitions = t.definitions ++ ds := by
  induction ds generalizing t with
  | nil =>
    cases h
    rw [List.append_nil]
  | cons d ds ih =>
    rw [registerAll] at h
    split at h
    · next t₁ hr => rw [ih h, definitions_of_register hr, List.append_assoc, List.singleton_append]
    · cases h

/-- A table that is built has the given definitions. -/
theorem build_eq_ok {ds : List VariantDefinition} {t : VariantTable} (h : build ds = .ok t) :
    t = ⟨ds, true⟩ := by
  unfold build at h
  split at h
  · next t' ht =>
    cases h
    rw [freeze, definitions_of_registerAll ht]
    rfl
  · cases h

theorem registerAll_of_nodup {t : VariantTable} {ds : List VariantDefinition}
    (ht : t.frozen = false) (hname : ∀ d ∈ ds, d.name ≠ [])
    (hnodup : ((t.definitions ++ ds).map (·.name)).Nodup) :
    t.registerAll ds = ({ t with definitions := t.definitions ++ ds }, none) := by
  induction ds generalizing t with
  | nil => simp [registerAll]
  | cons d ds ih =>
    obtain ⟨hd, hname⟩ := List.forall_mem_cons.1 hname
    have hnew : t.contains d.name = false := by
      rw [contains, find?, Option.isSome_eq_false_iff, Option.isNone_iff_eq_none,
        List.find?_eq_none]
      intro d' hd' heq
      rw [List.map_append, List.nodup_append] at hnodup
      exact hnodup.2.2 d'.name (List.mem_map_of_mem hd') d.name (by simp) (of_decide_eq_true heq)
    have hr : t.register d = .ok { t with definitions := t.definitions ++ [d] } := by
      simp [register, ht, hd, hnew]
    have hrest := @ih { t with definitions := t.definitions ++ [d] } ht hname
      (by rwa [List.append_cons] at hnodup)
    rw [registerAll, hr]
    dsimp only
    rw [hrest, List.append_assoc, List.singleton_append]

/-- Definitions with distinct names make a table. -/
theorem build_of_nodup {ds : List VariantDefinition} (hname : ∀ d ∈ ds, d.name ≠ [])
    (hnodup : (ds.map (·.name)).Nodup) : build ds = .ok ⟨ds, true⟩ := by
  have h := @registerAll_of_nodup empty ds rfl hname hnodup
  rw [build, h]
  rfl

/-- A short description: the number of definitions, and whether the table is frozen. -/
def describe (t : VariantTable) : Text :=
  Text.join [] ["VariantRegistry(entries=", Text.ofNat t.size, ", frozen=",
    if t.frozen then "True" else "False", ")"]

end VariantTable

end UtilityCss
