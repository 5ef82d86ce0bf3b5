import UtilityCss.Cascade.Key
import UtilityCss.Proofs.Candidate.Limits
import UtilityCss.Proofs.Variant.BlockFree
import UtilityCss.Proofs.Variant.Spelling
import UtilityCss.Proofs.Variant.Table

/-!
# Variants that fit their table

A variant holds names, and what it means depends on what the table says of them. A variant that is
read *fits* the table (`Variant.WellFormed`): the outer names are those of compound roots, the
name of the leaf is that of a definition that takes what the leaf brings along, and only the first
atom of the chain has a modifier. A bracketed selector stands alone.

Resolving a variant takes a name that is unknown, or has a definition of another kind, for a
refusal, and the cascade key puts it behind all others. Neither happens to a variant that fits:
its wrap is what the definitions of its names make of it (`Variant.GivenBy`), and its names have
places in the table.

* `Leaf.fits_of_step?`, `Leaf.fits_of_chainOf?`: the leaf that one step of reading finds fits, and
  so does the leaf at the end of all of them;
* `ChainSpelling.outers_fit`: the roots of a chain fit;
* `Variant.wrap?_of_givenBy`: resolving gives what the definitions give;
* `Variant.ofText?_wellFormed`: what is read fits.
-/

namespace UtilityCss

/-! ## Fitting -/

/-- The name of a leaf stands for a definition that takes what follows the name. A bracketed
    selector has no name, and cannot end its block. -/
inductive Leaf.Fits (table : VariantTable) : Leaf → Prop
  | static {name : Text} {wrap : Wrap} {compounds : Bool} :
      table.behavior? name = some (.fixed wrap compounds) → Fits table (.named (.static name))
  | functional {name : Text} {argument : Argument} {modifier : Option Text}
      {resolve : Argument → Option Text → Option Wrap} {values : List Text} :
      table.behavior? name = some (.functional resolve values) →
      (∀ group, argument ≠ .identifier group) →
      Fits table (.named (.functional name argument modifier))
  | compound {name value : Text} {modifier : Option Text} {root : CompoundRoot} :
      table.behavior? name = some (.compound root) →
      Fits table (.named (.functional name (.arbitrary value) modifier))
  | selector {selector : Text} : selector ≠ [] → selector.isBlockFree = true →
      Fits table (.arbitrary selector)

/-- A chain of at most so many compound roots of a table, of which only the outermost may name a
    group, around a leaf that fits. Inside a root, the leaf has a name and no modifier. -/
structure Variant.WellFormed (table : VariantTable) (limit : Int) (v : Variant) : Prop where
  length_le : (v.outers.length : Int) ≤ limit
  outers : ∀ outer ∈ v.outers, OuterAtom table outer
  inner : ∀ outer ∈ v.outers.tail, outer = .static outer.name
  leaf : v.leaf.Fits table
  inside : v.outers ≠ [] → v.leaf.modifier? = none ∧ ∀ selector, v.leaf ≠ .arbitrary selector

/-- The wrap that its definition gives a leaf. There is no rule for a name that is unknown, or
    stands for a definition of another kind. -/
inductive Leaf.GivenBy (table : VariantTable) : Leaf → Option LeafWrap → Prop
  | static {name : Text} {wrap : Wrap} {compounds : Bool} :
      table.behavior? name = some (.fixed wrap compounds) →
      GivenBy table (.named (.static name)) (some (wrap, compounds))
  | functional {name : Text} {argument : Argument} {modifier : Option Text}
      {resolve : Argument → Option Text → Option Wrap} {values : List Text} :
      table.behavior? name = some (.functional resolve values) →
      GivenBy table (.named (.functional name argument modifier))
        ((resolve argument modifier).map fun wrap => (wrap, wrap.isSelector))
  | compound {name value : Text} {modifier : Option Text} {root : CompoundRoot} :
      table.behavior? name = some (.compound root) →
      GivenBy table (.named (.functional name (.arbitrary value) modifier))
        ((root.arbitrary? value modifier).map fun wrap => (wrap, wrap.isSelector))
  | selector {selector : Text} :
      GivenBy table (.arbitrary selector) (some (Leaf.wrapOfSelector selector))

/-- The wrap that the definitions of its names give a variant, and whether a further root may stand
    around it. -/
inductive Variant.GivenBy (table : VariantTable) : Variant → Option LeafWrap → Prop
  | leaf {leaf : Leaf} {given : Option LeafWrap} : leaf.GivenBy table given →
      GivenBy table (.ofLeaf leaf) given
  | root {outer : Atom} {root : CompoundRoot} {inner : Variant} {given : Option LeafWrap} :
      table.behavior? outer.name = some (.compound root) → GivenBy table inner given →
      GivenBy table (.inside outer inner)
        ((given.filter (·.2)).bind fun wrap =>
          (root.compound? wrap.1 outer.groupName?).map (·, true))

variable {table : VariantTable} {s : Text}

/-! ## Reading -/

theorem Argument.ne_identifier_of_ofText? {argument : Argument} (h : ofText? s = some argument)
    (group : Text) : argument ≠ .identifier group := by
  rintro rfl
  cases spelling_of_ofText? h

theorem Argument.eq_arbitrary_of_ofText? {argument : Argument} (h : ofText? s = some argument)
    (hs : s.head? = some '[') : ∃ value, argument = .arbitrary value := by
  rw [ofText?, if_pos hs] at h
  obtain ⟨_, h⟩ := Option.ite_none_right_eq_some.1 h
  obtain ⟨value, _, rfl⟩ := Option.map_eq_some_iff.1 h
  exact ⟨value, rfl⟩

/-- The name of an atom, if it is one of a table. -/
theorem OuterAtom.behavior?_name {outer : Atom} (h : OuterAtom table outer) :
    ∃ root, table.behavior? outer.name = some (.compound root) := by
  cases h with
  | static hb => exact ⟨_, hb⟩
  | group hb => exact ⟨_, hb⟩

namespace Leaf

variable {modifier : Option Text} {l : Leaf}

theorem fits_of_stepAt? {root value : Text}
    (h : Variant.stepAt? table modifier root value = some (.leaf l)) :
    l.Fits table ∧ ∀ selector, l ≠ .arbitrary selector := by
  unfold Variant.stepAt? at h
  obtain ⟨_, h⟩ := Option.ite_none_left_eq_some.1 h
  split at h
  · cases h
  · cases h
  · next hb =>
    obtain ⟨argument, hargument, h⟩ := Option.map_eq_some_iff.1 h
    cases h
    exact ⟨.functional hb (Argument.ne_identifier_of_ofText? hargument), nofun⟩
  · next hb =>
    split at h
    · next hhead =>
      obtain ⟨argument, hargument, h⟩ := Option.map_eq_some_iff.1 h
      cases h
      obtain ⟨selector, rfl⟩ := Argument.eq_arbitrary_of_ofText? hargument hhead
      exact ⟨.compound hb, nofun⟩
    · cases h

theorem fits_of_isFixed {name : Text} (h : Variant.isFixed table name = true) :
    (named (.static name)).Fits table := by
  unfold Variant.isFixed at h
  split at h
  · next hb => exact .static hb
  · cases h

theorem fits_of_ofSelector? {content selector : Text}
    (h : ofSelector? content = some (.arbitrary selector)) : (arbitrary selector).Fits table := by
  obtain ⟨_, hvalue, ⟨⟩⟩ := decodeNonempty?_of_ofSelector? h
  exact .selector (decodeNonempty?_eq_some.1 hvalue).2 (isGuarded_of_ofSelector? h)

/-- The leaf that a step of reading finds fits. A bracketed selector is the whole text. -/
theorem fits_of_step? {outermost : Bool}
    (h : Variant.step? table outermost s = some (.leaf l)) :
    l.Fits table ∧ ∀ selector, l = .arbitrary selector → s.head? = some '[' := by
  rcases Variant.step?_eq_some h with ⟨content, value, rfl, hselector, ⟨⟩⟩ | ⟨base, modifier, h⟩
  · exact ⟨fits_of_ofSelector? hselector, fun _ _ => rfl⟩
  · obtain ⟨_, _, _, _, h⟩ := h
    rw [Variant.stepOf?] at h
    split at h
    · next hfixed =>
      cases h
      exact ⟨fits_of_isFixed (Bool.and_eq_true_iff.1 hfixed).2, fun _ hl => by cases hl⟩
    · obtain ⟨split, _, hstep⟩ := List.exists_of_findSome?_eq_some h
      obtain ⟨hfits, hnamed⟩ := fits_of_stepAt? hstep
      exact ⟨hfits, fun selector hl => absurd hl (hnamed selector)⟩

/-- The leaf at the end of a chain fits. A bracketed selector is the whole chain, as the text
    behind a compound root begins with no bracket. -/
theorem fits_of_chainOf? {steps : Nat} {outermost : Bool} {v : Variant}
    (h : Variant.chainOf? table steps outermost s = some v) :
    v.leaf.Fits table ∧
      ∀ selector, v.leaf = .arbitrary selector → v.outers = [] ∧ s.head? = some '[' := by
  induction steps generalizing outermost s v with
  | zero => cases h
  | succ steps ih =>
    rw [Variant.chainOf?] at h
    split at h
    · cases h
    · next leaf hstep =>
      cases h
      obtain ⟨hfits, hselector⟩ := fits_of_step? hstep
      exact ⟨hfits, fun selector hl => ⟨rfl, hselector selector hl⟩⟩
    · next outer rest hstep =>
      obtain ⟨inner, hinner, rfl⟩ := Option.map_eq_some_iff.1 h
      obtain ⟨hfits, hselector⟩ := ih hinner
      obtain ⟨_, _, _, _, hspelling⟩ := Variant.spelling_of_step? hstep
      cases hspelling with
      | compound _ _ _ _ _ _ hhead =>
        exact ⟨hfits, fun selector hl => absurd (hselector selector hl).2 hhead⟩

end Leaf

/-- An atom without a group is a bare name. -/
theorem OuterAtom.eq_static {outer : Atom} (h : OuterAtom table outer)
    (hgroup : outer.groupName? = none) : outer = .static outer.name := by
  cases h with
  | static => rfl
  | group => cases hgroup

/-- The roots of a chain are compound roots of the table. Only the first atom of the chain may have
    a modifier, so a root inside another names no group, and a leaf inside a root has none. -/
theorem ChainSpelling.outers_fit {v : Variant} (h : ChainSpelling table v s) :
    (∀ outer ∈ v.outers, OuterAtom table outer) ∧
      (∀ outer ∈ v.outers.tail, outer = .static outer.name) ∧
      (v.outers ≠ [] → v.leaf.modifier? = none) := by
  induction h with
  | leaf => exact ⟨List.forall_mem_nil _, List.forall_mem_nil _, fun hne => absurd rfl hne⟩
  | @root outer inner _ _ houter _ _ _ _ hnone ih =>
    obtain ⟨houters, hinner, hleaf⟩ := ih
    refine ⟨List.forall_mem_cons.2 ⟨houter, houters⟩, ?_, fun _ => ?_⟩
    · show ∀ o ∈ inner.outers, o = .static o.name
      cases hcases : inner.outers with
      | nil => exact List.forall_mem_nil _
      | cons first rest =>
        rw [hcases] at houters hinner
        rw [Variant.modifier?, hcases] at hnone
        exact List.forall_mem_cons.2 ⟨(houters first (.head _)).eq_static hnone, hinner⟩
    · by_cases hne : inner.outers = []
      · rw [Variant.modifier?, hne] at hnone
        exact hnone
      · exact hleaf hne

/-! ## Resolving -/

namespace Leaf

variable {l : Leaf}

/-- A leaf that fits has a wrap by its definition, or is refused by it. -/
theorem Fits.exists_givenBy (h : l.Fits table) : ∃ given, l.GivenBy table given := by
  cases h with
  | static hb => exact ⟨_, .static hb⟩
  | functional hb => exact ⟨_, .functional hb⟩
  | compound hb => exact ⟨_, .compound hb⟩
  | selector => exact ⟨_, .selector⟩

theorem wrap?_of_givenBy {given : Option LeafWrap} (h : l.GivenBy table given) :
    l.wrap? table = given := by
  cases h with
  | static hb => rw [wrap?, hb]
  | functional hb => simp only [wrap?, wrapOfArgument?, hb]
  | compound hb => simp only [wrap?, wrapOfArgument?, hb]
  | selector => rfl

end Leaf

namespace VariantTable

/-- A name that has a definition has a place in the table. -/
theorem order_lt_size {name : Text} {behavior : VariantBehavior}
    (h : table.behavior? name = some behavior) : table.order name < table.size := by
  obtain ⟨d, hd, _⟩ := Option.map_eq_some_iff.1 h
  rw [order_lt_size_iff, contains, hd, Option.isSome_some]

end VariantTable

theorem Leaf.Fits.order_lt_size {l : Leaf} (h : l.Fits table)
    (hl : ∀ selector, l ≠ .arbitrary selector) : l.order table < table.size := by
  cases h with
  | static hb => exact VariantTable.order_lt_size hb
  | functional hb => exact VariantTable.order_lt_size hb
  | compound hb => exact VariantTable.order_lt_size hb
  | @selector selector => exact absurd rfl (hl selector)

namespace Variant

variable {v : Variant}

/-- The wrap of a variant so far, and whether a further root may stand around it: only a leaf may
    refuse that. -/
def innerWrap? (table : VariantTable) (v : Variant) : Option LeafWrap :=
  if v.outers.isEmpty then v.leaf.wrap? table else (v.wrap? table).map (·, true)

theorem map_fst_innerWrap? (v : Variant) : (v.innerWrap? table).map Prod.fst = v.wrap? table := by
  rw [innerWrap?]
  split
  · next h =>
    rw [wrap?, h]
    cases v.leaf.wrap? table with
    | none => rfl
    | some wrap =>
      rw [List.isEmpty_iff] at h
      simp [h]
  · cases v.wrap? table <;> rfl

/-- A further root makes a wrap of the wrap so far. -/
theorem wrap?_inside (outer : Atom) (v : Variant) :
    (v.inside outer).wrap? table
      = ((v.innerWrap? table).filter (·.2)).bind fun wrap => compound? table outer wrap.1 := by
  rw [innerWrap?, wrap?, wrap?]
  cases hleaf : v.leaf.wrap? table with
  | none => simp [inside, hleaf]
  | some wrap =>
    obtain ⟨wrap, compounds⟩ := wrap
    cases compounds with
    | false => cases houters : v.outers <;> simp [inside, hleaf, houters, Option.filter]
    | true =>
      cases houters : v.outers with
      | nil => simp [inside, hleaf, houters, Option.filter]
      | cons first rest =>
        have hkept (inner : Option Wrap) : ((inner.map (·, true)).filter (·.2)).bind
            (fun wrap => compound? table outer wrap.1) = inner.bind (compound? table outer) := by
          cases inner <;> rfl
        simp only [inside, hleaf, houters, Bool.true_or, if_true, List.isEmpty_cons,
          Bool.false_eq_true, if_false, hkept]
        rfl

theorem wrap?_of_givenBy {given : Option LeafWrap} (h : v.GivenBy table given) :
    v.wrap? table = given.map Prod.fst := by
  suffices hinner : v.innerWrap? table = given by rw [← hinner, map_fst_innerWrap?]
  induction h with
  | leaf hleaf => exact Leaf.wrap?_of_givenBy hleaf
  | @root outer root inner given hb _ ih =>
    have hinside : (inner.inside outer).innerWrap? table
        = ((inner.inside outer).wrap? table).map (·, true) := rfl
    rw [hinside, wrap?_inside, ih, Option.map_bind]
    simp only [compound?, hb, Function.comp_def]

/-- A variant that fits has a wrap by the definitions of its names, or is refused by them. -/
theorem WellFormed.exists_givenBy {limit : Int} (h : v.WellFormed table limit) :
    ∃ given, v.GivenBy table given := by
  obtain ⟨outers, leaf⟩ := v
  have houters : ∀ outer ∈ outers, OuterAtom table outer := h.outers
  have hleaf : leaf.Fits table := h.leaf
  clear h
  induction outers with
  | nil =>
    obtain ⟨given, hgiven⟩ := hleaf.exists_givenBy
    exact ⟨given, .leaf hgiven⟩
  | cons outer outers ih =>
    obtain ⟨houter, houters⟩ := List.forall_mem_cons.1 houters
    obtain ⟨root, hb⟩ := houter.behavior?_name
    obtain ⟨given, hgiven⟩ := ih houters
    exact ⟨_, .root hb hgiven⟩

/-- The cascade key of a variant that fits holds places of the table. -/
theorem WellFormed.order_lt_size {limit : Int} (h : v.WellFormed table limit) :
    (∃ selector, v = .ofLeaf (.arbitrary selector)) ∨
      (v.cascadeKey table).1 < table.size ∧ v.leaf.order table < table.size := by
  by_cases hl : ∃ selector, v.leaf = .arbitrary selector
  · obtain ⟨selector, hl⟩ := hl
    have houters : v.outers = [] := by
      by_contra hne
      exact (h.inside hne).2 selector hl
    exact .inl ⟨selector, by rw [ofLeaf, ← houters, ← hl]⟩
  · have hleaf := h.leaf.order_lt_size fun selector hselector => hl ⟨selector, hselector⟩
    refine .inr ⟨?_, hleaf⟩
    rw [cascadeKey]
    split
    · exact hleaf
    · next outer rest houters =>
      obtain ⟨root, hb⟩ := (h.outers outer (houters ▸ .head _)).behavior?_name
      exact VariantTable.order_lt_size hb

/-- *What is read fits the table*: a chain of at most so many compound roots, bare but for the
    outermost, around a leaf that its definition takes, or a bracketed selector alone. So resolving
    it comes upon no name that is unknown or of another kind, and its cascade key is made of places
    in the table. -/
theorem ofText?_wellFormed {settings : Settings} (h : ofText? table settings s = some v) :
    v.WellFormed table settings.maxCompoundRoots ∧
      (∃ given, v.GivenBy table given ∧ v.wrap? table = given.map Prod.fst) ∧
      ((∃ selector, v = .ofLeaf (.arbitrary selector)) ∨
        (v.cascadeKey table).1 < table.size ∧ v.leaf.order table < table.size) := by
  have hwell : v.WellFormed table settings.maxCompoundRoots := by
    obtain ⟨_, _, hlength⟩ := (ofText?_iff (Int.le_refl _) (Int.le_refl _)).1 h
    obtain ⟨_, hchain⟩ := Option.ite_none_left_eq_some.1 h
    obtain ⟨hleaf, hselector⟩ := Leaf.fits_of_chainOf? hchain
    obtain ⟨hspelling⟩ := spelling_of_ofText? h
    obtain ⟨houters, hinner, hmodifier⟩ := hspelling.outers_fit
    exact ⟨hlength, houters, hinner, hleaf, fun hne =>
      ⟨hmodifier hne, fun selector hl => hne (hselector selector hl).1⟩⟩
  obtain ⟨given, hgiven⟩ := hwell.exists_givenBy
  exact ⟨hwell, ⟨given, hgiven, wrap?_of_givenBy hgiven⟩, hwell.order_lt_size⟩

/-- Two roots, of which the outer one names a group, around a bracketed argument of a third. -/
theorem ofText?_wellFormed_of_group :
    let table : VariantTable :=
      ⟨[.relation "group" (.marked "group" " "), .relation "not" .negation,
        .relation "has" .containing], true⟩
    let v : Variant := ⟨[.functional "group" (.identifier "x") none, .static "not"],
      .named (.functional "has" (.arbitrary "p") none)⟩
    ofText? table .stock "group-not-has-[p]/x" = some v ∧ v.WellFormed table 16 ∧
      (∃ given, v.GivenBy table given ∧ v.wrap? table = given.map Prod.fst) ∧
      (v.cascadeKey table).1 < 3 ∧ v.leaf.order table < 3 := by
  intro table v
  have hread : ofText? table .stock "group-not-has-[p]/x" = some v := by
    decide +kernel
  obtain ⟨hwell, hgiven, hselector | horder⟩ := ofText?_wellFormed hread
  · obtain ⟨selector, hselector⟩ := hselector
    cases congrArg outers hselector
  · exact ⟨hread, hwell, hgiven, horder⟩

end Variant

end UtilityCss
