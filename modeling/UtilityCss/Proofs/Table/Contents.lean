import UtilityCss.Compilation.Basic
import UtilityCss.Proofs.Table.Index

/-!
# What a table tells of its history

After any calls, a table holds what was registered with success, in order, whatever failed in
between. A table of utilities is one list, from which its readers take three things: the parser
looks up the entries of a name, the compiler tries them one after the other, and the cascade goes by
the place of an entry. A table of variants takes a name once, so that the place of a name is that of
its only definition.

* `UtilityTable.Marked`: a mark stands for one entry, also if that is registered again;
* `UtilityTable.entries_after`, `VariantTable.definitions_after`: what a table holds after a
  history;
* `UtilityTable.tellsHistory`, `VariantTable.tellsHistory`: what holds of the two tables after a
  history;
* `tables_tellHistory`: both together.
-/

namespace UtilityCss

open Registry

/-! ## Utilities -/

namespace UtilityTable

variable {t t' : UtilityTable} {r : Registration} {calls : List (TableCall Registration)}

/-- A mark stands for one entry, and new entries get marks of their own. -/
structure Marked (t : UtilityTable) : Prop where
  lt_size : ∀ e ∈ t.entries, e.mark < t.size
  eq_of_mark : ∀ e ∈ t.entries, ∀ e' ∈ t.entries, e.mark = e'.mark → e = e'

/-- A registration keeps marks apart, if it is of a new entry or of one that is there. -/
theorem Marked.take (h : t.Marked) (hr : ∀ e, r = .again e → e ∈ t.entries)
    (htake : t.take r = .ok t') : t'.Marked := by
  have hentries : t'.entries = t.entries ++ [r.entry t.size] :=
    congrArg entries (eq_of_take htake)
  have hsize : t'.size = t.size + 1 := by
    rw [size, hentries, List.length_append, List.length_singleton, size]
  have hmem {e : UtilityEntry} : e ∈ t'.entries ↔ e ∈ t.entries ∨ e = r.entry t.size := by
    rw [hentries, List.mem_append, List.mem_singleton]
  -- The entry that is added is one of those before, or it has a mark that none of them has.
  have hnew : r.entry t.size ∈ t.entries ∨ (r.entry t.size).mark = t.size := by
    rcases r with utility | e
    · exact .inr rfl
    · exact .inl (hr e rfl)
  rcases hnew with hnew | hnew
  · have hold {e : UtilityEntry} (he : e ∈ t'.entries) : e ∈ t.entries := by
      rcases hmem.1 he with he | rfl
      · exact he
      · exact hnew
    exact ⟨fun e he => hsize ▸ Nat.lt_succ_of_lt (h.lt_size e (hold he)),
      fun e he e' he' => h.eq_of_mark e (hold he) e' (hold he')⟩
  · refine ⟨fun e he => ?_, fun e he e' he' hmark => ?_⟩
    · rcases hmem.1 he with he | rfl
      · exact hsize ▸ Nat.lt_succ_of_lt (h.lt_size e he)
      · rw [hnew, hsize]
        exact Nat.lt_succ_self _
    · rcases hmem.1 he with he | rfl
      · rcases hmem.1 he' with he' | rfl
        · exact h.eq_of_mark e he e' he' hmark
        · exact absurd (hmark.trans hnew) (Nat.ne_of_lt (h.lt_size e he))
      · rcases hmem.1 he' with he' | rfl
        · exact absurd (hmark.symm.trans hnew) (Nat.ne_of_lt (h.lt_size e' he'))
        · rfl

/-- The calls register only entries again that are in the table. -/
def AgainEntries (calls : List (TableCall Registration)) : Prop :=
  ∀ before e rest, calls = before ++ .register (.again e) :: rest →
    e ∈ (registry.after before).entries

theorem marked_after (h : AgainEntries calls) : (registry.after calls).Marked := by
  induction calls using List.reverseRecOn with
  | nil => exact ⟨nofun, nofun⟩
  | append_singleton calls c ih =>
    have hbefore : AgainEntries calls := by
      rintro before e rest rfl
      exact h before e (rest ++ [c]) (List.append_assoc ..)
    rw [after_concat]
    rcases c with r | _
    · change (orStay _ (take _ r)).2.Marked
      rcases htake : (registry.after calls).take r with _ | t'
      · exact ih hbefore
      · refine (ih hbefore).take ?_ htake
        rintro e rfl
        exact h calls e [] rfl
    · have hmarked := ih hbefore
      exact ⟨hmarked.lt_size, hmarked.eq_of_mark⟩

/-- What holds of the table of utilities with a history. -/
structure TellsHistory (calls : List (TableCall Registration)) (t : UtilityTable) : Prop where
  steady : registry.Steady calls
  /-- A registration fails when the table is frozen, or without a name. -/
  fails_iff (r : Registration) (reason : UtilityTableError) :
    t.take r = .error reason ↔ (.freeze ∈ calls ∧ reason = .frozen) ∨
      (.freeze ∉ calls ∧ r.name = [] ∧ reason = .emptyName)
  /-- The entries are those of the registrations that succeed, in order. -/
  entries : t.entries = (registry.taken calls).mapIdx Registration.entry
  /-- An entry that is registered again is the same entry. -/
  eq_of_mark : AgainEntries calls → ∀ e ∈ t.entries, ∀ e' ∈ t.entries, e.mark = e'.mark → e = e'
  /-- The entries of a name are those among all entries, in the same order. -/
  get (name : Text) : t.get name = t.entries.filter fun e => e.name = name
  takesValue_iff (name : Text) : t.takesValue name = true ↔
    ∃ e ∈ t.get name, ∃ rules default signed, e.utility = .dynamic name rules default signed
  standsBare_iff (name : Text) : t.standsBare name = true ↔
    ∃ e ∈ t.get name, (∃ declarations, e.utility = .static name declarations) ∨
      ∃ rules value signed, e.utility = .dynamic name rules (some value) signed
  /-- The place of an entry is that of its last registration. -/
  order : ∀ e ∈ t.entries, t.IsLastPlace e.mark ((Source.entry e).order t)
  order_lt : ∀ e ∈ t.entries, (Source.entry e).order t < Source.arbitraryProperty.order t
  /-- An index that is kept piece by piece gives the same. -/
  index : (UtilityIndex.registry.after calls).IsIndexOf t
  index_steady : UtilityIndex.registry.Steady calls
  index_register (r : Registration) :
    (UtilityIndex.registry.register (UtilityIndex.registry.after calls) r).1
      = (registry.register t r).1

theorem entries_after (calls : List (TableCall Registration)) :
    (registry.after calls).entries = (registry.taken calls).mapIdx Registration.entry := by
  refine after_induction (R := registry) (P := fun t items =>
    t.entries = items.mapIdx Registration.entry) rfl (fun _ _ h => h) ?_ calls
  intro t r items hok h
  have hsize : t.size = items.length := by rw [size, h, List.length_mapIdx]
  have hentries : (registry.register t r).2.entries = t.entries ++ [r.entry t.size] :=
    congrArg entries (eq_of_take (eq_ok_of_orStay hok))
  rw [hentries, List.mapIdx_concat, h, hsize]

theorem tellsHistory (calls : List (TableCall Registration)) :
    TellsHistory calls (registry.after calls) where
  steady := Registry.steady calls
  fails_iff r reason := by
    rw [← frozen_after_iff (R := registry)]
    exact take_eq_error_iff
  entries := entries_after calls
  eq_of_mark h := (marked_after h).eq_of_mark
  get _ := rfl
  takesValue_iff name := by
    rw [takesValue, List.any_eq_true]
    refine exists_congr fun e => and_congr_right fun he => ?_
    have hname : e.utility.name = name := of_decide_eq_true (List.mem_filter.1 he).2
    rcases hutility : e.utility with ⟨name', declarations⟩ | ⟨name', rules, default, signed⟩
    · simp [Utility.takesValue]
    · rw [hutility] at hname
      simp [Utility.takesValue, ← hname, Utility.name]
  standsBare_iff name := by
    rw [standsBare, List.any_eq_true]
    refine exists_congr fun e => and_congr_right fun he => ?_
    have hname : e.utility.name = name := of_decide_eq_true (List.mem_filter.1 he).2
    rcases hutility : e.utility with ⟨name', declarations⟩ | ⟨name', rules, default, signed⟩
    · rw [hutility] at hname
      simp [Utility.standsBare, ← hname, Utility.name]
    · rw [hutility] at hname
      simp [Utility.standsBare, ← hname, Utility.name, Option.isSome_iff_exists]
  order e he := isLastPlace_order _ he
  order_lt e he := (isLastPlace_order _ he).lt_size
  index := UtilityIndex.isIndexOf_after calls
  index_steady := Registry.steady calls
  index_register r := ((UtilityIndex.isIndexOf_after calls).register r).1

/-- A utility without a name is passed over, and an entry that is registered again goes last. -/
example :
    let flex : UtilityEntry := ⟨0, .static "flex" []⟩
    let t := registry.after [.register (.new flex.utility), .register (.new (.static [] [])),
      .register (.new (.static "grow" [])), .register (.again flex)]
    t.size = 3 ∧ t.order flex = 2 := by
  decide

end UtilityTable

/-! ## Variants -/

namespace VariantTable

/-- What holds of the table of variants with a history. -/
structure TellsHistory (calls : List (TableCall VariantDefinition)) (t : VariantTable) : Prop where
  steady : registry.Steady calls
  /-- A registration fails when the table is frozen, without a name, or with one that is there. -/
  fails_iff (d : VariantDefinition) (reason : VariantTableError) :
    t.register d = .error reason ↔ (.freeze ∈ calls ∧ reason = .frozen) ∨
      (.freeze ∉ calls ∧ d.name = [] ∧ reason = .emptyName) ∨
      (.freeze ∉ calls ∧ d.name ≠ [] ∧ t.contains d.name = true ∧ reason = .duplicate d.name)
  /-- The definitions are those of the registrations that succeed, in order. -/
  definitions : t.definitions = registry.taken calls
  nodup : (t.definitions.map (·.name)).Nodup
  contains_iff {name : Text} : t.contains name = true ↔ name ∈ t.definitions.map (·.name)
  /-- A definition is found under its name. -/
  find? : ∀ d ∈ t.definitions, t.find? d.name = some d
  /-- The place of a name is that of its definition. -/
  order {place : Nat} {d : VariantDefinition} :
    t.definitions[place]? = some d → t.order d.name = place
  order_known {name : Text} : t.contains name = true → t.order name < t.size
  /-- Unknown names come after all others. -/
  order_unknown {name : Text} : t.contains name = false → t.order name = t.size
  /-- An index that is kept piece by piece gives the same. -/
  index : (VariantIndex.registry.after calls).IsIndexOf t
  index_steady : VariantIndex.registry.Steady calls
  index_register (d : VariantDefinition) :
    (VariantIndex.registry.register (VariantIndex.registry.after calls) d).1
      = (registry.register t d).1

theorem definitions_after (calls : List (TableCall VariantDefinition)) :
    (registry.after calls).definitions = registry.taken calls ∧
      ((registry.after calls).definitions.map (·.name)).Nodup := by
  refine after_induction (R := registry) (P := fun t items =>
    t.definitions = items ∧ (t.definitions.map VariantDefinition.name).Nodup) ⟨rfl, List.nodup_nil⟩
    (fun _ _ h => h) ?_ calls
  rintro t d items hok ⟨rfl, hnodup⟩
  have hregister := eq_ok_of_orStay hok
  exact ⟨definitions_of_register hregister, nodup_of_register hregister hnodup⟩

theorem tellsHistory (calls : List (TableCall VariantDefinition)) :
    TellsHistory calls (registry.after calls) where
  steady := Registry.steady calls
  fails_iff d reason := by
    rw [← frozen_after_iff (R := registry)]
    exact register_eq_error_iff
  definitions := (definitions_after calls).1
  nodup := (definitions_after calls).2
  contains_iff := contains_iff_mem
  find? d hd := find?_of_nodup (definitions_after calls).2 hd
  order hd := order_of_nodup (definitions_after calls).2 (by simp [hd])
  order_known := order_lt_size_iff.2
  order_unknown := order_eq_size
  index := VariantIndex.isIndexOf_after calls
  index_steady := Registry.steady calls
  index_register d := ((VariantIndex.isIndexOf_after calls).register d).1

end VariantTable

/-- *Tables tell their history*: after any calls on an empty table of utilities or of variants,
    failing ones among them, the table holds what was registered with success, in order, and each
    way of looking something up gives what was registered. -/
theorem tables_tellHistory :
    (∀ calls : List (TableCall Registration),
      UtilityTable.TellsHistory calls (UtilityTable.registry.after calls)) ∧
    ∀ calls : List (TableCall VariantDefinition),
      VariantTable.TellsHistory calls (VariantTable.registry.after calls) :=
  ⟨UtilityTable.tellsHistory, VariantTable.tellsHistory⟩

end UtilityCss
