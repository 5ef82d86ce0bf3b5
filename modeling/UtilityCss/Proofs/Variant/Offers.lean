import UtilityCss.Completion
import UtilityCss.Proofs.Compilation.Lookup
import UtilityCss.Proofs.Design.Stock
import UtilityCss.Proofs.Session.Plain
import UtilityCss.Proofs.Variant.Rendering

/-!
# Offered variants

The variants are offered from their definitions alone: behind a compound root every fixed variant
that compounds, and behind a functional one the arguments that it knows by name. Whether a segment
applies is decided when it is read, by the longest root, and when it is resolved, by the root
itself. For the stock variants of any theme, and values that are keys, the two part in two places
only.

* `Design.refuses`: all compound roots but `not` refuse the at-rules that are offered for them, as
  in `group-dark`;
* `Design.overreads`: the name `@` in front of a container whose key begins with `max-` or `min-`
  is read as the longer name.
-/

namespace UtilityCss

/-! ## The names of stock variants -/

namespace VariantDefinition

open VariantTable

/-- The names of the stock compound roots. -/
def compoundNames : List Text :=
  stockRelations.map (·.1)

/-- The names of the functional stock variants that know no argument by name. -/
def unlistedNames : List Text :=
  unlistedQueries.map (·.1)

/-- The names of all stock variants that take an argument. -/
def argumentNames : List Text :=
  compoundNames ++ "aria".toList :: unlistedNames ++ viewportNames ++ atNames

/-- The names of the stock variants behind which values are offered. -/
def listedNames : List Text :=
  compoundNames ++ "aria".toList :: viewportNames ++ atNames

theorem IsStock.isFixed_or_mem {theme : Theme} {d : VariantDefinition} (h : d.IsStock theme) :
    d.behavior.isFixed = true ∨ d.name ∈ argumentNames := by
  have hsubset : compoundNames ⊆ argumentNames ∧ unlistedNames ⊆ argumentNames ∧
      viewportNames ⊆ argumentNames ∧ atNames ⊆ argumentNames := by decide
  cases h with
  | selector | atRule | breakpoint => exact .inl rfl
  | relation hmem => exact .inr (hsubset.1 (List.mem_map_of_mem hmem))
  | states => exact .inr (by decide)
  | unlisted hmem => exact .inr (hsubset.2.1 (List.mem_map_of_mem hmem))
  | viewport hname => exact .inr (hsubset.2.2.1 hname)
  | container hname => exact .inr (hsubset.2.2.2 hname)

end VariantDefinition

/-! ## The stock table of a theme -/

namespace VariantTable

open VariantDefinition

variable {theme : Theme} {table : VariantTable} {name : Text}

theorem isFixed_or_mem (htable : stock theme = .ok table) (h : table.contains name = true) :
    Variant.isFixed table name = true ∨ name ∈ argumentNames := by
  obtain ⟨behavior, hb⟩ := exists_behavior?_of_contains h
  rw [Variant.isFixed_eq hb]
  exact (isStock_of_behavior? htable hb).isFixed_or_mem

/-- Behind a listed name and its hyphen, no name goes on but fixed ones. -/
theorem isFixed_of_listed_prefix (htable : stock theme = .ok table) (hname : name ∈ listedNames)
    {longer : Text} (h : table.contains longer = true) (hstart : (name ++ ['-']) <+: longer) :
    Variant.isFixed table longer = true := by
  have hnone : ∀ name ∈ listedNames, ∀ longer ∈ argumentNames,
      (name ++ ['-']).isPrefixOf longer = false := by decide
  rcases isFixed_or_mem htable h with hfixed | hmem
  · exact hfixed
  · have hfalse := hnone name hname longer hmem
    rw [List.isPrefixOf_iff_prefix.2 hstart] at hfalse
    cases hfalse

theorem atNamesRegular_of_stock (htable : stock theme = .ok table) :
    Variant.AtNamesRegular table := by
  have hat : ∀ name ∈ compoundNames ++ "aria".toList :: unlistedNames ++ viewportNames,
      name.head? ≠ some '@' := by decide
  intro name hcontains
  obtain ⟨behavior, hb⟩ := exists_behavior?_of_contains hcontains
  rw [Variant.isFixed_eq hb]
  cases isStock_of_behavior? htable hb with
  | selector | atRule | breakpoint => exact .inl rfl
  | relation hmem =>
    have hname := List.mem_map_of_mem (f := Prod.fst) hmem
    exact absurd rfl (hat _ (List.mem_append_left _ (List.mem_append_left _ hname)))
  | unlisted hmem =>
    have hname := List.mem_map_of_mem (f := Prod.fst) hmem
    exact absurd rfl (hat _ (List.mem_append_left _ (List.mem_append_right _ (.tail _ hname))))
  | viewport hname => exact absurd rfl (hat _ (List.mem_append_right _ hname))
  | container hname => exact .inr ⟨hname, _, _, hb⟩

end VariantTable

/-! ## Reading a plain segment -/

namespace Design

open Variant

variable {d : Design} {s : Text}

/-- A segment is read as a variant that applies. -/
def Resolves (d : Design) (segment : Text) : Prop :=
  ∃ v, d.variantOf? segment = some v ∧ (v.wrap? d.variants).isSome = true

theorem resolves_iff {v : Variant} (h : d.variantOf? s = some v) :
    d.Resolves s ↔ (v.wrap? d.variants).isSome = true := by
  constructor
  · rintro ⟨v', hv', hwrap⟩
    rw [h] at hv'
    cases hv'
    exact hwrap
  · intro hwrap
    exact ⟨v, h, hwrap⟩

theorem step?_of_rootChars {outermost : Bool} {step : Variant.Step}
    (hs : ∀ c ∈ s, isRootChar c = true) (hne : s ≠ []) (h : stepOf? d.variants s none = some step) :
    step? d.variants outermost s = some step := by
  obtain ⟨hplain, hslash, _⟩ := plain_of_rootChars hs
  refine step?_of_segments (fun hhead => ?_) (Text.segments_plain hplain hslash) hne rfl
    (fun _ => rfl) h
  exact absurd (hs _ (List.mem_of_head? hhead)) (by decide)

theorem variantOf?_of_rootChars (hs : ∀ c ∈ s, isRootChar c = true) (hne : s ≠ []) :
    d.variantOf? s = chainOf? d.variants (d.settings.maxCompoundRoots + 1).toNat true s := by
  have hbalanced : s.isBalanced d.settings.maxOpenGroups = true :=
    Text.isBalanced_plain (plain_of_rootChars hs).1
  rw [variantOf?, Variant.ofText?, if_neg (by simp [hne, hbalanced])]

/-- A segment that is a leaf applies if the leaf has a wrap. -/
theorem resolves_leaf (hroots : 1 ≤ d.settings.maxCompoundRoots)
    (hs : ∀ c ∈ s, isRootChar c = true) (hne : s ≠ []) {leaf : Leaf}
    (h : stepOf? d.variants s none = some (.leaf leaf)) :
    d.Resolves s ↔ (leaf.wrap? d.variants).isSome = true := by
  obtain ⟨steps, hsteps⟩ : ∃ steps, (d.settings.maxCompoundRoots + 1).toNat = steps + 1 :=
    ⟨d.settings.maxCompoundRoots.toNat, by omega⟩
  have hread : d.variantOf? s = some (ofLeaf leaf) := by
    rw [variantOf?_of_rootChars hs hne, hsteps, chainOf?, step?_of_rootChars hs hne h]
  rw [resolves_iff hread, Variant.wrap?, ofLeaf]
  cases leaf.wrap? d.variants with
  | none => rfl
  | some p => simp

/-- A segment that is a fixed name inside a compound root applies if the root takes its wrap. -/
theorem resolves_compound (hroots : 1 ≤ d.settings.maxCompoundRoots)
    (hs : ∀ c ∈ s, isRootChar c = true) (hne : s ≠ []) {root rest : Text}
    {compound : CompoundRoot} {wrap : Wrap} (hrest : ∀ c ∈ rest, isRootChar c = true)
    (hrestne : rest ≠ [])
    (h : stepOf? d.variants s none = some (.compound (.static root) rest))
    (hb : d.variants.behavior? root = some (.compound compound))
    (hinner : d.variants.behavior? rest = some (.fixed wrap true)) :
    d.Resolves s ↔ (compound.compound? wrap none).isSome = true := by
  obtain ⟨steps, hsteps⟩ : ∃ steps, (d.settings.maxCompoundRoots + 1).toNat = steps + 2 :=
    ⟨d.settings.maxCompoundRoots.toNat - 1, by omega⟩
  have hleaf : stepOf? d.variants rest none = some (.leaf (.named (.static rest))) :=
    if_pos (by rw [isFixed_eq hinner]; rfl)
  have hread : d.variantOf? s = some ⟨[.static root], .named (.static rest)⟩ := by
    rw [variantOf?_of_rootChars hs hne, hsteps, chainOf?, step?_of_rootChars hs hne h]
    dsimp only
    rw [chainOf?, step?_of_rootChars hrest hrestne hleaf]
    rfl
  rw [resolves_iff hread, Variant.wrap?, Leaf.wrap?, hinner]
  simp [Variant.compound?, Atom.name, Atom.groupName?, hb]

end Design

/-! ## The wraps of listed values -/

/-- A compound root takes every selector, and `not` the conditional at-rules besides. -/
theorem Relation.isSome_compound? (relation : Relation) {wrap : Wrap}
    (hwrap : ∀ name params, wrap = .atRule name params → conditionalAtRules.contains name = true) :
    (relation.compound? wrap none).isSome = true ↔
      relation = .negation ∨ wrap.isSelector = true := by
  cases wrap with
  | selector template => cases relation <;> simp [compound?, Wrap.isSelector]
  | atRule name params =>
    have hname := hwrap name params rfl
    cases relation with
    | negation => simp only [compound?, if_pos hname, Option.isSome_some, true_or]
    | _ => simp [compound?, Wrap.isSelector]

theorem SizeQuery.isSome_wrap? (q : SizeQuery) (key : Text) :
    (q.wrap? (.key key) none).isSome = q.theme.contains (Theme.variableName q.nameSpace key) := by
  rw [wrap?, if_neg (by simp), Option.isSome_map, size?, Theme.valueFor?, Theme.variableFor?,
    List.map_singleton, List.find?_singleton]
  by_cases h : q.theme.contains (Theme.variableName q.nameSpace key) = true
  · rw [if_pos h, Option.bind_some, h]
    exact h
  · rw [if_neg h, eq_false_of_ne_true h]
    rfl

theorem Query.isSome_wrap?_aria {key : Text} (h : key ∈ ariaStates) :
    (aria.wrap? (.key key) none).isSome = true := by
  rw [wrap?, if_pos (List.contains_iff_mem.2 h)]
  rfl

theorem Leaf.isSome_wrap?_functional {table : VariantTable} {name : Text}
    {resolve : Argument → Option Text → Option Wrap} {values : List Text}
    (hb : table.behavior? name = some (.functional resolve values))
    (argument : Argument) (modifier : Option Text) :
    (Leaf.wrap? table (.named (.functional name argument modifier))).isSome
      = (resolve argument modifier).isSome := by
  rw [wrap?, Option.isSome_map]
  unfold wrapOfArgument?
  rw [hb]

/-! ## Offers -/

/-- The segment that an offered value is written as. -/
def VariantOffer.segment (o : VariantOffer) (value : Text) : Text :=
  o.name ++ (if o.hasDash then ['-'] else []) ++ value

namespace Design

open Variant VariantTable

variable {d : Design} {o : VariantOffer} {name value : Text}

/-- Whether a stock compound root refuses the at-rule of a fixed variant. -/
def refuses (d : Design) (name value : Text) : Bool :=
  match d.variants.behavior? name, d.variants.behavior? value with
  | some (.compound _), some (.fixed wrap _) => name ≠ "not".toList && !wrap.isSelector
  | _, _ => false

/-- Whether the name `@` in front of a key is read as a longer name, and what is left of the key
    names no container. -/
def overreads (d : Design) (name value : Text) : Bool :=
  name = "@".toList && ["max-".toList, "min-".toList].any fun start =>
    start.isPrefixOf value && Text.isKey (value.drop start.length)
      && !d.theme.contains (Theme.variableName "--container" (value.drop start.length))

theorem mem_compoundable : value ∈ d.compoundable ↔
    ∃ wrap, ⟨value, .fixed wrap true⟩ ∈ d.variants.definitions := by
  rw [compoundable, List.mem_filterMap]
  constructor
  · rintro ⟨⟨name, behavior⟩, hmem, hvalue⟩
    dsimp only at hvalue
    split at hvalue
    · next wrap =>
      cases hvalue
      exact ⟨wrap, hmem⟩
    · cases hvalue
  · rintro ⟨wrap, hmem⟩
    exact ⟨_, hmem, rfl⟩

/-- Where an offered value comes from. -/
theorem exists_of_mem_variantOffers (ho : o ∈ d.variantOffers) (hvalue : value ∈ o.values) :
    ∃ definition ∈ d.variants.definitions, o.name = definition.name ∧
      ((∃ resolve values, definition.behavior = .functional resolve values ∧ value ∈ values) ∨
        ∃ root, definition.behavior = .compound root ∧ value ∈ d.compoundable) := by
  obtain ⟨⟨name, behavior⟩, hmem, rfl⟩ := List.mem_map.1 ho
  refine ⟨_, hmem, ?_⟩
  cases behavior with
  | fixed => cases hvalue
  | functional resolve values => exact ⟨rfl, .inl ⟨resolve, values, rfl, hvalue⟩⟩
  | compound root => exact ⟨rfl, .inr ⟨root, rfl, hvalue⟩⟩

theorem refuses_of_functional {resolve : Argument → Option Text → Option Wrap} {values : List Text}
    (hb : d.variants.behavior? name = some (.functional resolve values)) :
    d.refuses name value = false := by
  rw [refuses, hb]

theorem overreads_of_ne (hname : name ≠ ['@']) : d.overreads name value = false := by
  simp [overreads, hname]

section Read

variable (htable : VariantTable.stock d.theme = .ok d.variants)
  (hroots : 1 ≤ d.settings.maxCompoundRoots) (hkey : value.isKey = true)

include hroots in
/-- A fixed name applies. -/
theorem resolves_of_isFixed {s : Text} (hs : ∀ c ∈ s, isRootChar c = true) (hne : s ≠ [])
    (hfixed : isFixed d.variants s = true) : d.Resolves s := by
  have hleaf : stepOf? d.variants s none = some (.leaf (.named (.static s))) :=
    if_pos (by rw [hfixed]; rfl)
  obtain ⟨behavior, hb⟩ := exists_behavior?_of_contains (isFixed_contains hfixed)
  rw [isFixed_eq hb] at hfixed
  cases behavior with
  | fixed =>
    rw [resolves_leaf hroots hs hne hleaf, Leaf.wrap?, hb]
    rfl
  | functional | compound => cases hfixed

theorem ne_nil_of_isKey (hkey : value.isKey = true) : value ≠ [] := by
  obtain ⟨c, rest, rfl, _⟩ := exists_eq_cons_of_isKey hkey
  exact List.cons_ne_nil c rest

theorem rootChars_of_listed (hname : name ∈ VariantDefinition.listedNames) :
    ∀ c ∈ name, isRootChar c = true := by
  have hall : VariantDefinition.listedNames.all (·.all isRootChar) = true := by decide
  exact List.all_eq_true.1 (List.all_eq_true.1 hall name hname)

theorem rootChars_segment (hname : ∀ c ∈ name, isRootChar c = true) (hkey : value.isKey = true) :
    ∀ c ∈ name ++ '-' :: value, isRootChar c = true :=
  List.forall_mem_append.2
    ⟨hname, List.forall_mem_cons.2 ⟨by decide, isRootChar_of_isKey hkey⟩⟩

include htable in
/-- A listed name is found in front of its hyphen. -/
theorem stepOf?_of_listed (hname : name ∈ VariantDefinition.listedNames)
    {behavior : VariantBehavior} (hb : d.variants.behavior? name = some behavior)
    (hfixed : isFixed d.variants (name ++ '-' :: value) = false) {step : Variant.Step}
    (hstep : stepAt? d.variants none name value = some step) :
    stepOf? d.variants (name ++ '-' :: value) none = some step := by
  have hchars := rootChars_of_listed hname
  have hfree : Text.BracketFree name :=
    ⟨fun h => absurd (hchars _ h) (by decide), fun h => absurd (hchars _ h) (by decide)⟩
  have hnonempty : ∀ name ∈ VariantDefinition.listedNames, name ≠ [] := by decide
  exact stepOf?_of_fixed_behind (hnonempty name hname) hfree (contains_of_behavior? hb)
    (fun _ => isFixed_of_listed_prefix htable hname) (fun _ => hfixed) hstep

include htable hroots hkey in
/-- Behind the hyphen of a listed name, its definition decides about a key. -/
theorem resolves_functional {resolve : Argument → Option Text → Option Wrap} {values : List Text}
    (hname : name ∈ VariantDefinition.listedNames)
    (hb : d.variants.behavior? name = some (.functional resolve values))
    (hfixed : isFixed d.variants (name ++ '-' :: value) = false) :
    d.Resolves (name ++ '-' :: value) ↔ (resolve (.key value) none).isSome = true := by
  have hstep : stepAt? d.variants none name value
      = some (.leaf (.named (.functional name (.key value) none))) := by
    rw [stepAt?_functional hb (ne_nil_of_isKey hkey), Argument.ofText?_of_isKey hkey]
    rfl
  rw [resolves_leaf hroots (rootChars_segment (rootChars_of_listed hname) hkey) (by simp)
    (stepOf?_of_listed htable hname hb hfixed hstep), Leaf.isSome_wrap?_functional hb]

include htable hroots hkey in
/-- A compound root in front of a fixed name applies if it does not refuse its wrap. -/
theorem resolves_of_compoundable {root : CompoundRoot}
    (hname : name ∈ VariantDefinition.listedNames)
    (hb : d.variants.behavior? name = some (.compound root)) (hvalue : value ∈ d.compoundable)
    (hfixed : isFixed d.variants (name ++ '-' :: value) = false) :
    d.Resolves (name ++ '-' :: value) ↔ d.refuses name value = false := by
  obtain ⟨wrap, hmem⟩ := mem_compoundable.1 hvalue
  have hinner : d.variants.behavior? value = some (.fixed wrap true) :=
    behavior?_of_build htable hmem
  have hstep := stepOf?_of_listed htable hname hb hfixed
    (stepAt?_compound hb (ne_nil_of_isKey hkey) (head?_ne_of_isKey hkey))
  have hwrap : ∀ name params, wrap = .atRule name params →
      conditionalAtRules.contains name = true := by
    rintro rule params rfl
    cases isStock_of_behavior? htable hinner with
    | atRule | breakpoint => rfl
  rw [resolves_compound hroots (rootChars_segment (rootChars_of_listed hname) hkey) (by simp)
    (isRootChar_of_isKey hkey) (ne_nil_of_isKey hkey) hstep hb hinner, refuses, hb, hinner]
  obtain ⟨relation, hmem, rfl⟩ := (isStock_of_behavior? htable hb).exists_relation
  have hnegation : ∀ p ∈ stockRelations, p.2 = .negation ↔ p.1 = "not".toList := by decide
  rw [relation.isSome_compound? hwrap, hnegation _ hmem]
  by_cases hnot : name = "not".toList <;> cases wrap <;> simp [hnot, Wrap.isSelector]

include htable in
theorem behavior?_of_definition {behavior : VariantBehavior}
    (hmem : ⟨name, behavior⟩ ∈ stockDefinitions d.theme) :
    d.variants.behavior? name = some behavior := by
  have hdefinitions : d.variants.definitions = stockDefinitions d.theme := by
    rw [build_eq_ok htable]
  rw [← hdefinitions] at hmem
  exact behavior?_of_build htable hmem

include htable in
theorem behavior?_of_atNames (hname : name ∈ atNames) :
    ∃ operator, d.variants.behavior? name = some (.functional
      (Query.size ⟨d.theme, "--container", "@container", operator, true⟩).wrap?
      (d.theme.keysUnder "--container")) := by
  have hmem : ∃ operator, .query name (.size ⟨d.theme, "--container", "@container", operator, true⟩)
      (d.theme.keysUnder "--container") ∈ stockContainers d.theme := by
    simp only [atNames, List.mem_cons, List.not_mem_nil, or_false] at hname
    rcases hname with rfl | rfl | rfl
    · exact ⟨_, .tail _ (.head _)⟩
    · exact ⟨_, .head _⟩
    · exact ⟨_, .tail _ (.tail _ (.head _))⟩
  obtain ⟨operator, hmem⟩ := hmem
  refine ⟨operator, behavior?_of_definition htable (List.mem_append_left _ ?_)⟩
  exact List.mem_append_right _ hmem

/-- A key that goes on with the name `@` is what stands behind it in a longer name, and a key. -/
theorem exists_of_isSizeKey (h : isSizeKey value = true) :
    ∃ start rest : Text, '@' :: start ∈ atNames ∧ value = start ++ '-' :: rest ∧ rest.isKey = true ∧
      d.overreads "@" value = !d.theme.contains (Theme.variableName "--container" rest) := by
  have hcases : (∃ rest : Text, value = "max-".toList ++ rest ∧ rest.isKey = true) ∨
      ∃ rest : Text, value = "min-".toList ++ rest ∧ rest.isKey = true := by
    simp only [isSizeKey, List.any_cons, List.any_nil, Bool.or_false, Bool.or_eq_true,
      Bool.and_eq_true, List.isPrefixOf_iff_prefix] at h
    rcases h with ⟨⟨rest, rfl⟩, hrest⟩ | ⟨⟨rest, rfl⟩, hrest⟩
    · rw [List.drop_left] at hrest
      exact .inl ⟨rest, rfl, hrest⟩
    · rw [List.drop_left] at hrest
      exact .inr ⟨rest, rfl, hrest⟩
  rcases hcases with ⟨rest, rfl, hrest⟩ | ⟨rest, rfl, hrest⟩
  · refine ⟨"max", rest, by decide, rfl, hrest, ?_⟩
    simp [overreads, hrest]
  · refine ⟨"min", rest, by decide, rfl, hrest, ?_⟩
    simp [overreads, hrest]

theorem overreads_eq_false_of_isSizeKey (h : isSizeKey value = false) :
    d.overreads name value = false := by
  simp only [isSizeKey, List.any_cons, List.any_nil, Bool.or_false, Bool.or_eq_false_iff] at h
  simp only [overreads, List.any_cons, List.any_nil, h.1, h.2, Bool.false_and, Bool.or_false,
    Bool.and_false]

include htable hroots hkey in
/-- The name `@` in front of a container applies if it does not read over the name. -/
theorem resolves_of_container (hvalue : value ∈ d.theme.keysUnder "--container")
    (hfixed : isFixed d.variants ('@' :: value) = false) :
    d.Resolves ('@' :: value) ↔ d.overreads "@" value = false := by
  have hchars : ∀ c ∈ '@' :: value, isRootChar c = true :=
    List.forall_mem_cons.2 ⟨by decide, isRootChar_of_isKey hkey⟩
  cases hsize : isSizeKey value with
  | false =>
    have hat : ['@'] ∈ atNames := by decide
    obtain ⟨operator, hb⟩ := behavior?_of_atNames htable hat
    have hread : stepOf? d.variants ('@' :: value) none = _ :=
      stepOf?_at_of_names (atNamesRegular_of_stock htable) hb (fun _ => hfixed) hkey hsize
    rw [resolves_leaf hroots hchars (by simp) hread, Leaf.isSome_wrap?_functional hb, Query.wrap?,
      SizeQuery.isSome_wrap?, overreads_eq_false_of_isSizeKey hsize]
    exact iff_of_true (Theme.mem_keysUnder.1 hvalue).1 rfl
  | true =>
    obtain ⟨start, rest, hstart, rfl, hrest, hover⟩ := exists_of_isSizeKey (d := d) hsize
    obtain ⟨operator, hb⟩ := behavior?_of_atNames htable hstart
    have hlisted : '@' :: start ∈ VariantDefinition.listedNames := List.mem_append_right _ hstart
    have hresolves := resolves_functional htable hroots hrest hlisted hb hfixed
    rw [Query.wrap?, SizeQuery.isSome_wrap?] at hresolves
    rw [hover, Bool.not_eq_false']
    exact hresolves

/-- How a value comes to be offered behind a name. -/
inductive IsOffered (d : Design) : Text → Text → Prop
  /-- A fixed variant inside a compound root. -/
  | inside {name value : Text} {root : CompoundRoot} : name ∈ VariantDefinition.compoundNames →
      d.variants.behavior? name = some (.compound root) → value ∈ d.compoundable →
      IsOffered d name value
  /-- An argument that a functional variant knows. -/
  | known {name value : Text} {resolve : Argument → Option Text → Option Wrap}
      {values : List Text} : name ∈ VariantDefinition.listedNames → name ≠ ['@'] →
      d.variants.behavior? name = some (.functional resolve values) →
      (resolve (.key value) none).isSome = true → IsOffered d name value
  /-- A container directly behind `@`. -/
  | container {value : Text} : value ∈ d.theme.keysUnder "--container" → IsOffered d ['@'] value

include htable in
theorem isOffered_of_mem (ho : o ∈ d.variantOffers) (hvalue : value ∈ o.values) :
    IsOffered d o.name value := by
  obtain ⟨⟨name, behavior⟩, hmem, hname, hkind⟩ := exists_of_mem_variantOffers ho hvalue
  have hb : d.variants.behavior? name = some behavior := behavior?_of_build htable hmem
  rw [hname]
  cases isStock_of_behavior? htable hb with
  | selector =>
    rcases hkind with ⟨_, _, hkind, _⟩ | ⟨_, hkind, _⟩ <;> cases hkind
  | atRule | breakpoint =>
    rcases hkind with ⟨_, _, hkind, _⟩ | ⟨_, hkind, _⟩ <;> cases hkind
  | relation hrelation =>
    rcases hkind with ⟨_, _, hkind, _⟩ | ⟨_, _, hinner⟩
    · cases hkind
    · exact .inside (List.mem_map_of_mem hrelation) hb hinner
  | states =>
    rcases hkind with ⟨_, _, hkind, hstate⟩ | ⟨_, hkind, _⟩
    · cases hkind
      exact .known (by decide) (by decide) hb (Query.isSome_wrap?_aria hstate)
    · cases hkind
  | unlisted =>
    rcases hkind with ⟨_, _, hkind, hnone⟩ | ⟨_, hkind, _⟩
    · cases hkind
      cases hnone
    · cases hkind
  | viewport hviewport =>
    rcases hkind with ⟨_, _, hkind, hsize⟩ | ⟨_, hkind, _⟩
    · cases hkind
      have hlisted : name ∈ VariantDefinition.listedNames :=
        List.mem_append_left _ (List.mem_append_right _ (.tail _ hviewport))
      have hne : ∀ name ∈ viewportNames, name ≠ ['@'] := by decide
      refine .known hlisted (hne name hviewport) hb ?_
      rw [Query.wrap?, SizeQuery.isSome_wrap?]
      exact (Theme.mem_keysUnder.1 hsize).1
    · cases hkind
  | container hat =>
    rcases hkind with ⟨_, _, hkind, hsize⟩ | ⟨_, hkind, _⟩
    · cases hkind
      by_cases hne : name = ['@']
      · rw [hne]
        exact .container hsize
      · refine .known (List.mem_append_right _ hat) hne hb ?_
        rw [Query.wrap?, SizeQuery.isSome_wrap?]
        exact (Theme.mem_keysUnder.1 hsize).1
    · cases hkind

theorem IsOffered.name_mem (h : IsOffered d name value) :
    name ∈ VariantDefinition.listedNames := by
  cases h with
  | inside hname => exact List.mem_append_left _ (List.mem_append_left _ hname)
  | known hname => exact hname
  | container => decide

theorem joint_of_ne (hname : name ≠ ['@']) :
    name ++ joint name ++ value = name ++ '-' :: value := by
  rw [joint, if_neg hname, List.append_assoc, List.singleton_append]

include htable hroots hkey in
/-- An offered value that is not put together to a fixed name applies, unless it is refused or read
    over. -/
theorem IsOffered.resolves_iff (h : IsOffered d name value)
    (hfixed : isFixed d.variants (name ++ joint name ++ value) = false) :
    d.Resolves (name ++ joint name ++ value) ↔
      d.refuses name value = false ∧ d.overreads name value = false := by
  cases h with
  | inside hname hb hinner =>
    have hne : name ≠ ['@'] := by
      have hall : ∀ name ∈ VariantDefinition.compoundNames, name ≠ ['@'] := by decide
      exact hall name hname
    rw [joint_of_ne hne] at hfixed ⊢
    have hlisted : name ∈ VariantDefinition.listedNames :=
      List.mem_append_left _ (List.mem_append_left _ hname)
    rw [resolves_of_compoundable htable hroots hkey hlisted hb hinner hfixed, overreads_of_ne hne]
    exact (and_iff_left rfl).symm
  | known hname hne hb hknown =>
    rw [joint_of_ne hne] at hfixed ⊢
    rw [resolves_functional htable hroots hkey hname hb hfixed, refuses_of_functional hb,
      overreads_of_ne hne]
    exact iff_of_true hknown ⟨rfl, rfl⟩
  | container hcontainer =>
    have hat : ['@'] ∈ atNames := by decide
    obtain ⟨_, hb⟩ := behavior?_of_atNames htable hat
    rw [refuses_of_functional hb]
    exact (resolves_of_container htable hroots hkey hcontainer hfixed).trans
      (and_iff_right rfl).symm

end Read

theorem segment_eq (ho : o ∈ d.variantOffers) :
    o.segment value = o.name ++ joint o.name ++ value := by
  have hdash : o.hasDash = decide (o.name ≠ ['@']) := by
    obtain ⟨⟨_, behavior⟩, _, rfl⟩ := List.mem_map.1 ho
    cases behavior <;> rfl
  rw [VariantOffer.segment, hdash, joint]
  by_cases hname : o.name = ['@'] <;> simp [hname]

/-- *What is offered applies*: in a design with the stock variants of its theme, the segment of an
    offered value applies, unless its compound root refuses the at-rule of the value, or the name
    `@` reads over its key. A segment that is a fixed name itself applies all the same. It is
    assumed that the value is a key, as no other is read. -/
theorem resolves_segment_iff {theme : Theme} {utilities : Option UtilityTable}
    {settings : Settings} (hd : build theme utilities none settings = .ok d)
    (hroots : 1 ≤ settings.maxCompoundRoots) (ho : o ∈ d.variantOffers) (hvalue : value ∈ o.values)
    (hkey : value.isKey = true) :
    d.Resolves (o.segment value) ↔ isFixed d.variants (o.segment value) = true ∨
      d.refuses o.name value = false ∧ d.overreads o.name value = false := by
  obtain ⟨_, _, htable, rfl⟩ := parts_of_build hd
  have hoffered := isOffered_of_mem htable ho hvalue
  have hchars : ∀ c ∈ o.name ++ joint o.name ++ value, isRootChar c = true :=
    List.forall_mem_append.2 ⟨List.forall_mem_append.2 ⟨rootChars_of_listed hoffered.name_mem,
      isRootChar_of_joint (joint_variantJoint o.name)⟩, isRootChar_of_isKey hkey⟩
  have hne : o.name ++ joint o.name ++ value ≠ [] := by
    simp [ne_nil_of_isKey hkey]
  rw [segment_eq ho]
  cases hfixed : isFixed d.variants (o.name ++ joint o.name ++ value) with
  | true => exact iff_of_true (resolves_of_isFixed hroots hchars hne hfixed) (.inl rfl)
  | false =>
    rw [or_iff_right Bool.false_ne_true]
    exact hoffered.resolves_iff htable hroots hkey hfixed

theorem dark_mem_stockDefinitions (theme : Theme) :
    ⟨"dark", .fixed (.atRule "@media" "(prefers-color-scheme: dark)") true⟩
      ∈ stockDefinitions theme :=
  List.mem_append_right _ (.tail _ (.tail _ (.tail _ (.tail _ (.head _)))))

/-- The negation of the dark color scheme is offered, and applies. -/
theorem resolves_segment_iff_of_not :
    let d : Design :=
      ⟨.stock, .stock .stock, ⟨stockDefinitions .stock, true⟩, .stock, rfl, rfl⟩
    let o : VariantOffer := ⟨"not", true, d.compoundable, true⟩
    build .stock none none .stock = .ok d ∧ 1 ≤ Settings.stock.maxCompoundRoots ∧
      o ∈ d.variantOffers ∧ "dark".toList ∈ o.values ∧ Text.isKey "dark" = true ∧
      d.Resolves (o.segment "dark") := by
  intro d o
  have hd : build .stock none none .stock = .ok d := stock_eq_ok
  have hdark := dark_mem_stockDefinitions .stock
  have hnot : .relation "not" .negation ∈ stockDefinitions .stock := by
    refine List.mem_append_left _ (List.mem_append_left _ (List.mem_append_left _ ?_))
    exact .tail _ (.head _)
  have ho : o ∈ d.variantOffers := List.mem_map.2 ⟨_, hnot, rfl⟩
  have hvalue : "dark".toList ∈ o.values := mem_compoundable.2 ⟨_, hdark⟩
  have hkey : Text.isKey "dark" = true := by decide
  refine ⟨hd, by decide, ho, hvalue, hkey, ?_⟩
  have htable := (parts_of_build hd).2.2.1
  have hrefuses : d.refuses "not" "dark" = false := by
    rw [refuses, behavior?_of_definition htable hnot, behavior?_of_definition htable hdark]
    rfl
  exact (resolves_segment_iff hd (by decide) ho hvalue hkey).2
    (.inr ⟨hrefuses, overreads_of_ne (by decide)⟩)

/-- The dark color scheme is offered behind `group`, too, and does not apply there. -/
theorem not_resolves_of_group :
    let d : Design :=
      ⟨.stock, .stock .stock, ⟨stockDefinitions .stock, true⟩, .stock, rfl, rfl⟩
    let o : VariantOffer := ⟨"group", true, d.compoundable, true⟩
    build .stock none none .stock = .ok d ∧ o ∈ d.variantOffers ∧ "dark".toList ∈ o.values ∧
      o.segment "dark" = "group-dark".toList ∧ ¬ d.Resolves (o.segment "dark") := by
  intro d o
  have hd : build .stock none none .stock = .ok d := stock_eq_ok
  have hdark := dark_mem_stockDefinitions .stock
  have hgroup : .relation "group" (.marked "group" " *") ∈ stockDefinitions .stock := by
    refine List.mem_append_left _ (List.mem_append_left _ (List.mem_append_left _ ?_))
    exact .tail _ (.tail _ (.head _))
  have hvalue : "dark".toList ∈ d.compoundable := mem_compoundable.2 ⟨_, hdark⟩
  have htable := (parts_of_build hd).2.2.1
  have hb := behavior?_of_definition htable hgroup
  have hfixed : isFixed d.variants "group-dark" = false := by
    refine eq_false_of_ne_true fun hfixed => ?_
    obtain ⟨behavior, hb'⟩ := exists_behavior?_of_contains (isFixed_contains hfixed)
    obtain ⟨definition, hmem, hname, _⟩ := exists_mem_of_behavior? hb'
    have hnames : definition.name ∈ (stockDefinitions .stock).map (·.name) :=
      List.mem_map_of_mem hmem
    rw [hname, map_name_stockDefinitions, Theme.keysUnder_stock] at hnames
    exact absurd hnames (by decide +kernel)
  refine ⟨hd, List.mem_map.2 ⟨_, hgroup, rfl⟩, hvalue, rfl, fun hresolves => ?_⟩
  have hrefuses := (resolves_of_compoundable htable (by decide) (by decide) (by decide) hb hvalue
    hfixed).1 hresolves
  rw [refuses, hb, behavior?_of_definition htable hdark] at hrefuses
  cases hrefuses

end Design

end UtilityCss
