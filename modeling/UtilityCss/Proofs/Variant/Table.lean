import Mathlib.Data.List.Nodup
import Mathlib.Tactic.SplitIfs
import UtilityCss.Variant.Table

/-!
# Names in a table of variants

A table takes a name once. So each definition is found under its name, the place of a name is that
of its definition, and a name that is not there comes after all others.

* `VariantTable.register_eq_error_iff`: why a definition is not taken;
* `VariantTable.exists_of_registerAll_eq_error`: at which definition building a table breaks off;
* `VariantTable.nodup_of_register`, `VariantTable.nodup_of_build`: no name comes twice;
* `VariantTable.duplicate_of_build_eq_error`: the first name that comes again is the reason;
* `VariantTable.find?_of_nodup`, `VariantTable.order_of_nodup`: what is looked up under a name;
* `VariantTable.behavior?_of_build`: a table that is built has every definition under its name.
-/

namespace UtilityCss

namespace VariantTable

variable {t t' : VariantTable} {d : VariantDefinition} {ds : List VariantDefinition}

theorem contains_iff_mem {name : Text} :
    t.contains name = true ↔ name ∈ t.definitions.map (·.name) := by
  rw [contains, find?, List.find?_isSome, List.mem_map]
  simp only [decide_eq_true_eq]

theorem contains_eq_false_iff {name : Text} :
    t.contains name = false ↔ name ∉ t.definitions.map (·.name) := by
  rw [← contains_iff_mem, Bool.not_eq_true]

theorem contains_append (t : VariantTable) (d : VariantDefinition) (name : Text) :
    contains { t with definitions := t.definitions ++ [d] } name
      = (t.contains name || decide (d.name = name)) := by
  rw [contains, find?, List.find?_append, Option.isSome_or, List.find?_singleton, contains, find?]
  by_cases h : d.name = name <;> simp [h]

/-! ## Registering -/

/-- Why a definition is not taken. -/
theorem register_eq_error_iff {e : VariantTableError} :
    t.register d = .error e ↔ (t.frozen = true ∧ e = .frozen) ∨
      (¬t.frozen = true ∧ d.name = [] ∧ e = .emptyName) ∨
      (¬t.frozen = true ∧ d.name ≠ [] ∧ t.contains d.name = true ∧ e = .duplicate d.name) := by
  rw [register]
  simp only [List.isEmpty_iff]
  split_ifs with hfrozen hname hcontains
  · rw [Except.error.injEq, eq_comm]
    simp [hfrozen]
  · rw [Except.error.injEq, eq_comm]
    simp [hfrozen, hname]
  · rw [Except.error.injEq, eq_comm]
    simp [hfrozen, hname, hcontains]
  · simp [hfrozen, hname, hcontains]

theorem frozen_of_register (h : t.register d = .ok t') : t'.frozen = t.frozen := by
  rw [register] at h
  split_ifs at h
  cases h
  rfl

theorem name_not_mem_of_register (h : t.register d = .ok t') :
    d.name ∉ t.definitions.map (·.name) := by
  rw [register] at h
  split_ifs at h with _ _ hcontains
  exact fun hmem => hcontains (contains_iff_mem.2 hmem)

/-- A definition that is taken has a name of its own. -/
theorem nodup_of_register (h : t.register d = .ok t')
    (ht : (t.definitions.map (·.name)).Nodup) : (t'.definitions.map (·.name)).Nodup := by
  rw [definitions_of_register h, List.map_append, List.map_singleton, ← List.concat_eq_append]
  exact ht.concat (name_not_mem_of_register h)

theorem nodup_of_registerAll (h : t.registerAll ds = (t', none))
    (ht : (t.definitions.map (·.name)).Nodup) : (t'.definitions.map (·.name)).Nodup := by
  induction ds generalizing t with
  | nil =>
    cases h
    exact ht
  | cons d ds ih =>
    rw [registerAll] at h
    split at h
    · next t₁ hr => exact ih h (nodup_of_register hr ht)
    · cases h

/-- Registering breaks off at the first definition that is not taken. -/
theorem exists_of_registerAll_eq_error {e : VariantTableError}
    (h : t.registerAll ds = (t', some e)) : ∃ before d after, ds = before ++ d :: after ∧
      t.registerAll before = (t', none) ∧ t'.register d = .error e := by
  induction ds generalizing t with
  | nil => cases h
  | cons d ds ih =>
    rw [registerAll] at h
    split at h
    · next t₁ hr =>
      obtain ⟨before, d', after, rfl, hbefore, he⟩ := ih h
      refine ⟨d :: before, d', after, rfl, ?_, he⟩
      rw [registerAll, hr]
      exact hbefore
    · next hr =>
      cases h
      exact ⟨[], d, ds, rfl, rfl, hr⟩

theorem frozen_of_registerAll (h : t.registerAll ds = (t', none)) : t'.frozen = t.frozen := by
  induction ds generalizing t with
  | nil =>
    cases h
    rfl
  | cons d ds ih =>
    rw [registerAll] at h
    split at h
    · next t₁ hr => rw [ih h, frozen_of_register hr]
    · cases h

theorem nodup_of_build (h : build ds = .ok t) : (t.definitions.map (·.name)).Nodup := by
  unfold build at h
  split at h
  · next t' ht =>
    cases h
    have hnodup := nodup_of_registerAll ht List.nodup_nil
    exact hnodup
  · cases h

/-- The first of some names that has come before. -/
def IsFirstRepeated (names : List Text) (name : Text) : Prop :=
  ∃ before after, names = before ++ name :: after ∧ before.Nodup ∧ name ∈ before

theorem IsFirstRepeated.two_le_count {names : List Text} {name : Text}
    (h : IsFirstRepeated names name) : 2 ≤ names.count name := by
  obtain ⟨before, after, rfl, _, hmem⟩ := h
  have hpos := List.count_pos_iff.2 hmem
  rw [List.count_append, List.count_cons_self]
  omega

/-- What keeps a table of definitions with names from being built is the first name that comes
    again. -/
theorem duplicate_of_build_eq_error {e : VariantTableError} (hname : ∀ d ∈ ds, d.name ≠ [])
    (h : build ds = .error e) :
    ∃ name, IsFirstRepeated (ds.map (·.name)) name ∧ e = .duplicate name := by
  unfold build at h
  split at h
  · cases h
  · next t' e' ht =>
    cases h
    obtain ⟨before, d, after, rfl, hbefore, he⟩ := exists_of_registerAll_eq_error ht
    have hdefinitions : t'.definitions = before := definitions_of_registerAll hbefore
    have hfrozen : t'.frozen = false := frozen_of_registerAll hbefore
    have hnodup := nodup_of_registerAll hbefore List.nodup_nil
    rw [register_eq_error_iff, hfrozen] at he
    rcases he with ⟨hfalse, _⟩ | ⟨_, hempty, _⟩ | ⟨_, _, hcontains, rfl⟩
    · cases hfalse
    · exact absurd hempty (hname d (by simp))
    · refine ⟨d.name, ⟨before.map (·.name), after.map (·.name), ?_, ?_, ?_⟩, rfl⟩
      · rw [List.map_append, List.map_cons]
      · rwa [hdefinitions] at hnodup
      · rwa [contains_iff_mem, hdefinitions] at hcontains

/-! ## Looking names up -/

theorem find?_of_nodup (hnodup : (t.definitions.map (·.name)).Nodup) (hd : d ∈ t.definitions) :
    t.find? d.name = some d := by
  have hsome : (t.find? d.name).isSome = true :=
    List.find?_isSome.2 ⟨d, hd, decide_eq_true rfl⟩
  obtain ⟨d', hfind⟩ := Option.isSome_iff_exists.1 hsome
  have hname := List.find?_some hfind
  rw [hfind, List.inj_on_of_nodup_map hnodup (List.mem_of_find?_eq_some hfind) hd
    (of_decide_eq_true hname)]

/-- A table that is built has every definition under its name. -/
theorem behavior?_of_build (h : build ds = .ok t) (hd : d ∈ t.definitions) :
    t.behavior? d.name = some d.behavior := by
  rw [behavior?, find?_of_nodup (nodup_of_build h) hd, Option.map_some]

theorem order_eq_idxOf (t : VariantTable) (name : Text) :
    t.order name = (t.definitions.map (·.name)).idxOf name := by
  rw [order, List.idxOf, List.findIdx_map]
  congr 1
  funext d
  exact (beq_eq_decide _ _).symm

/-- If no name comes twice, the place of a name is where it stands. -/
theorem order_of_nodup {place : Nat} {name : Text} (hnodup : (t.definitions.map (·.name)).Nodup)
    (hname : (t.definitions.map (·.name))[place]? = some name) : t.order name = place := by
  obtain ⟨hlt, rfl⟩ := List.getElem?_eq_some_iff.1 hname
  rw [order_eq_idxOf, hnodup.idxOf_getElem]

theorem order_lt_size_iff {name : Text} : t.order name < t.size ↔ t.contains name = true := by
  rw [order_eq_idxOf, size, ← List.length_map (·.name), List.idxOf_lt_length_iff, contains_iff_mem]

/-- One more definition comes last, and changes no place before. -/
theorem order_append (t : VariantTable) (d : VariantDefinition) (name : Text) :
    order { t with definitions := t.definitions ++ [d] } name
      = if t.contains name then t.order name
        else if d.name = name then t.size else t.size + 1 := by
  rw [order_eq_idxOf, List.map_append, List.map_singleton, List.idxOf_append, List.idxOf_cons,
    order_eq_idxOf, size, List.length_map]
  simp only [← contains_iff_mem]
  by_cases h : d.name = name
  · simp [h]
  · rw [beq_eq_false_iff_ne.2 h, cond_false, if_neg h, List.idxOf_nil, Nat.zero_add, Nat.add_comm]

/-- Names that are not in a table come after all others. -/
theorem order_eq_size {name : Text} (h : t.contains name = false) : t.order name = t.size := by
  rw [order_eq_idxOf, List.idxOf_eq_length (contains_eq_false_iff.1 h), List.length_map, size]

end VariantTable

end UtilityCss
