import UtilityCss.Proofs.Bracket.Division
import UtilityCss.Proofs.Bracket.Roots
import UtilityCss.Variant.Parser

/-!
# How segments spell variants

The form of a segment that is read as a variant. The compound roots come first, each with its
joint, and then the leaf. A modifier may stand behind a slash at the end, but it belongs to the
atom that comes first: the leaf, or the outermost root (`VariantSpelling`).

A name and what follows it are joined by a hyphen, and only the name `@` can do without
(`Joint`). Text in brackets spells what it decodes to.

* `Variant.spelling_of_ofText?`: what is read is spelled.
-/

namespace UtilityCss

/-- What stands between a name and what follows it. -/
inductive Joint (name : Text) : Text → Prop
  | hyphen : Joint name ['-']
  | at : name = ['@'] → Joint name []

/-- A text spells an argument. -/
inductive ArgumentSpelling : Argument → Text → Prop
  | key {value : Text} : value.isKey = true → ArgumentSpelling (.key value) value
  | bracketed {content value : Text} : decodeNonempty? content = some value →
      ArgumentSpelling (.arbitrary value) (Bracket.square.enclose content)

/-- A text spells a leaf, without its modifier. -/
inductive LeafSpelling (table : VariantTable) : Leaf → Text → Prop
  | static {name : Text} : Variant.isFixed table name = true →
      LeafSpelling table (.named (.static name)) name
  | functional {name joint text : Text} {argument : Argument} {modifier : Option Text} :
      name ≠ [] → Text.BracketFree name → table.contains name = true →
      Variant.isFixed table name = false → Joint name joint → ArgumentSpelling argument text →
      modifier.all Text.isIdentifier = true →
      LeafSpelling table (.named (.functional name argument modifier)) (name ++ joint ++ text)
  | selector {content value : Text} : Leaf.ofSelector? content = some (.arbitrary value) →
      LeafSpelling table (.arbitrary value) (Bracket.square.enclose content)

/-- An atom is a compound root of a table, perhaps with the name of a group. -/
inductive OuterAtom (table : VariantTable) : Atom → Prop
  | static {name : Text} {root : CompoundRoot} :
      table.behavior? name = some (.compound root) → OuterAtom table (.static name)
  | group {name group : Text} {root : CompoundRoot} :
      table.behavior? name = some (.compound root) → group.isIdentifier = true →
      OuterAtom table (.functional name (.identifier group) none)

/-- The modifier of a leaf. -/
def Leaf.modifier? : Leaf → Option Text
  | named (.functional _ _ modifier) => modifier
  | _ => none

/-- The modifier of the atom that comes first. -/
def Variant.modifier? (v : Variant) : Option Text :=
  match v.outers with
  | [] => v.leaf.modifier?
  | outer :: _ => outer.groupName?

/-- A text spells a variant, without its modifier. -/
inductive ChainSpelling (table : VariantTable) : Variant → Text → Prop
  | leaf {leaf : Leaf} {text : Text} : LeafSpelling table leaf text →
      ChainSpelling table (.ofLeaf leaf) text
  | root {outer : Atom} {inner : Variant} {joint text : Text} : OuterAtom table outer →
      outer.name ≠ [] → Text.BracketFree outer.name → Joint outer.name joint →
      ChainSpelling table inner text → inner.modifier? = none →
      ChainSpelling table (.inside outer inner) (outer.name ++ joint ++ text)

/-- A text spells a variant: the chain, and the modifier behind a slash, if there is one. -/
inductive VariantSpelling (table : VariantTable) (v : Variant) : Text → Prop
  | mk {text : Text} : ChainSpelling table v text →
      VariantSpelling table v (text ++ renderModifier v.modifier?)

/-! ## Reading -/

theorem decodeNonempty?_eq_some {s value : Text} :
    decodeNonempty? s = some value ↔ s.decode = .ok value ∧ value ≠ [] := by
  rw [decodeNonempty?, Option.filter_eq_some_iff, Text.decode?]
  refine and_congr ?_ (by simp)
  cases s.decode with
  | error e => simp [Except.toOption]
  | ok value' => simp [Except.toOption]

theorem Leaf.decodeNonempty?_of_ofSelector? {s : Text} {l : Leaf} (h : ofSelector? s = some l) :
    ∃ value, decodeNonempty? s = some value ∧ l = arbitrary value := by
  rw [ofSelector?] at h
  split at h
  · cases h
  · next value hvalue =>
    obtain ⟨_, h⟩ := Option.ite_none_left_eq_some.1 h
    refine ⟨value, hvalue, ?_⟩
    split at h
    · obtain ⟨_, h⟩ := Option.ite_none_right_eq_some.1 h
      exact (Option.some.inj h).symm
    · exact (Option.some.inj h).symm

theorem Argument.spelling_of_ofText? {s : Text} {argument : Argument}
    (h : ofText? s = some argument) : ArgumentSpelling argument s := by
  rw [ofText?] at h
  split at h
  · next ho =>
    obtain ⟨hc, h⟩ := Option.ite_none_right_eq_some.1 h
    obtain ⟨value, hvalue, rfl⟩ := Option.map_eq_some_iff.1 h
    obtain ⟨content, rfl⟩ := Bracket.exists_eq_enclose (b := .square) ho hc
    rw [Bracket.inner_enclose] at hvalue
    exact .bracketed hvalue
  · obtain ⟨hkey, h⟩ := Option.ite_none_right_eq_some.1 h
    cases h
    exact .key hkey

/-- Every split of a text that is offered joins to it again. -/
theorem Text.joint_of_mem_rootSplits {s root value : Text} {isRoot : Text → Bool}
    (h : (root, value) ∈ s.rootSplits isRoot) :
    ∃ joint, Joint root joint ∧ s = root ++ joint ++ value ∧ root ≠ [] ∧ BracketFree root ∧
      isRoot root = true := by
  rw [rootSplits_eq, List.mem_append, mem_hyphenRoots, mem_atRoot] at h
  rcases h with ⟨rfl, hne, hfree, hroot⟩ | ⟨rfl, rfl, _, hroot⟩
  · exact ⟨_, .hyphen, List.append_cons root '-' value, hne, hfree, hroot⟩
  · exact ⟨_, .at rfl, rfl, by simp, by simp [BracketFree], hroot⟩

namespace Variant

variable {table : VariantTable} {s : Text} {modifier : Option Text}

/-- What one step of reading finds is spelled by the text without the modifier. -/
inductive StepSpelling (table : VariantTable) (modifier : Option Text) : Step → Text → Prop
  | leaf {leaf : Leaf} {text : Text} : LeafSpelling table leaf text → leaf.modifier? = modifier →
      StepSpelling table modifier (.leaf leaf) text
  | compound {outer : Atom} {joint text : Text} : OuterAtom table outer →
      outer.groupName? = modifier → outer.name ≠ [] → Text.BracketFree outer.name →
      Joint outer.name joint → text ≠ [] → text.head? ≠ some '[' →
      StepSpelling table modifier (.compound outer text) (outer.name ++ joint ++ text)

theorem spelling_of_stepAt? {root value joint : Text} {step : Step}
    (hmodifier : modifier.all Text.isIdentifier = true) (hne : root ≠ [])
    (hfree : Text.BracketFree root) (hroot : table.contains root = true) (hjoint : Joint root joint)
    (h : stepAt? table modifier root value = some step) :
    StepSpelling table modifier step (root ++ joint ++ value) := by
  have hleaf {argument : Argument} (hfixed : isFixed table root = false)
      (h : Argument.ofText? value = some argument) :
      StepSpelling table modifier (.leaf (.named (.functional root argument modifier)))
        (root ++ joint ++ value) :=
    .leaf (.functional hne hfree hroot hfixed hjoint (Argument.spelling_of_ofText? h) hmodifier) rfl
  unfold stepAt? at h
  obtain ⟨hvalue, h⟩ := Option.ite_none_left_eq_some.1 h
  replace hvalue : value ≠ [] := by simpa using hvalue
  split at h
  · cases h
  · cases h
  · next hb =>
    obtain ⟨argument, hargument, rfl⟩ := Option.map_eq_some_iff.1 h
    exact hleaf (by rw [isFixed, hb]) hargument
  · next hb =>
    split at h
    · obtain ⟨argument, hargument, rfl⟩ := Option.map_eq_some_iff.1 h
      exact hleaf (by rw [isFixed, hb]) hargument
    · next hhead =>
      cases h
      cases modifier with
      | none => exact .compound (OuterAtom.static hb) rfl hne hfree hjoint hvalue hhead
      | some group =>
        exact .compound (OuterAtom.group hb hmodifier) rfl hne hfree hjoint hvalue hhead

theorem spelling_of_stepOf? {step : Step} (hmodifier : modifier.all Text.isIdentifier = true)
    (h : stepOf? table s modifier = some step) : StepSpelling table modifier step s := by
  rw [stepOf?] at h
  split at h
  · next hfixed =>
    rw [Bool.and_eq_true, Option.isNone_iff_eq_none] at hfixed
    cases h
    exact .leaf (.static hfixed.2) hfixed.1.symm
  · obtain ⟨⟨root, value⟩, hsplit, hstep⟩ := List.exists_of_findSome?_eq_some h
    obtain ⟨joint, hjoint, rfl, hne, hfree, hroot⟩ := Text.joint_of_mem_rootSplits hsplit
    exact spelling_of_stepAt? hmodifier hne hfree hroot hjoint hstep

/-- A step is a bracketed selector, or is found in the text before the slash. -/
theorem step?_eq_some {outermost : Bool} {step : Step} (h : step? table outermost s = some step) :
    (∃ content value, s = Bracket.square.enclose content ∧
      Leaf.ofSelector? content = some (.arbitrary value) ∧ step = .leaf (.arbitrary value)) ∨
    ∃ base modifier, s.segments '/' = base :: modifier.toList ∧ base ≠ [] ∧
      modifier.all Text.isIdentifier = true ∧ (outermost = false → modifier = none) ∧
      stepOf? table base modifier = some step := by
  rw [step?] at h
  split at h
  · next hb =>
    rw [Bool.and_eq_true, decide_eq_true_eq] at hb
    obtain ⟨leaf, hleaf, rfl⟩ := Option.map_eq_some_iff.1 h
    obtain ⟨content, rfl⟩ := Bracket.exists_eq_enclose (b := .square) hb.1 hb.2
    rw [Bracket.inner_enclose] at hleaf
    obtain ⟨value, _, rfl⟩ := Leaf.decodeNonempty?_of_ofSelector? hleaf
    exact .inl ⟨content, value, rfl, hleaf, rfl⟩
  · refine .inr ?_
    split at h
    · next base hs =>
      obtain ⟨hbase, h⟩ := Option.ite_none_left_eq_some.1 h
      exact ⟨base, none, hs, by simpa using hbase, rfl, fun _ => rfl, h⟩
    · next base name hs =>
      obtain ⟨hname, h⟩ := Option.ite_none_left_eq_some.1 h
      simp only [Bool.or_eq_true, Bool.not_eq_true', not_or, Bool.not_eq_false,
        List.isEmpty_iff] at hname
      exact ⟨base, some name, hs, hname.1.1, hname.1.2, by simp [hname.2], h⟩
    · cases h

/-- The text before the slash and the modifier join to the whole text. -/
theorem eq_of_segments {base : Text} (h : s.segments '/' = base :: modifier.toList) :
    s = base ++ renderModifier modifier := by
  have hjoin := Text.join_segments s '/'
  rw [h] at hjoin
  cases modifier with
  | none => rw [← hjoin, Option.toList_none, Text.join_singleton, renderModifier, List.append_nil]
  | some name =>
    rw [← hjoin, Option.toList_some, Text.join_cons_cons, Text.join_singleton, List.append_assoc]
    rfl

theorem spelling_of_step? {outermost : Bool} {step : Step}
    (h : step? table outermost s = some step) : ∃ text modifier,
      s = text ++ renderModifier modifier ∧ (outermost = false → modifier = none) ∧
        StepSpelling table modifier step text := by
  rcases step?_eq_some h with ⟨content, value, rfl, hleaf, rfl⟩ | ⟨base, modifier, hs, h⟩
  · exact ⟨_, none, (List.append_nil _).symm, fun _ => rfl, .leaf (.selector hleaf) rfl⟩
  · obtain ⟨_, hmodifier, hnone, h⟩ := h
    exact ⟨base, modifier, eq_of_segments hs, hnone, spelling_of_stepOf? hmodifier h⟩

theorem spelling_of_chainOf? {steps : Nat} {outermost : Bool} {v : Variant}
    (h : chainOf? table steps outermost s = some v) :
    VariantSpelling table v s ∧ (outermost = false → v.modifier? = none) := by
  induction steps generalizing outermost s v with
  | zero => cases h
  | succ steps ih =>
    rw [chainOf?] at h
    split at h
    · cases h
    · next leaf hstep =>
      cases h
      obtain ⟨text, modifier, rfl, hnone, hspelling⟩ := spelling_of_step? hstep
      cases hspelling with
      | leaf hleaf hmodifier =>
        rw [← hmodifier] at hnone ⊢
        exact ⟨.mk (.leaf hleaf), hnone⟩
    · next outer rest hstep =>
      obtain ⟨inner, hinner, rfl⟩ := Option.map_eq_some_iff.1 h
      obtain ⟨text, modifier, rfl, hnone, hspelling⟩ := spelling_of_step? hstep
      obtain ⟨⟨hchain⟩, hmodifier⟩ := ih hinner
      replace hmodifier := hmodifier rfl
      cases hspelling with
      | compound houter hgroup hne hfree hjoint =>
        rw [← hgroup] at hnone ⊢
        rw [hmodifier]
        refine ⟨.mk (v := .inside outer inner) (.root houter hne hfree hjoint ?_ hmodifier), hnone⟩
        rw [renderModifier, List.append_nil]
        exact hchain

/-- What is read from a segment is spelled by it. -/
theorem spelling_of_ofText? {settings : Settings} {v : Variant}
    (h : ofText? table settings s = some v) : VariantSpelling table v s := by
  obtain ⟨_, h⟩ := Option.ite_none_left_eq_some.1 h
  exact (spelling_of_chainOf? h).1

end Variant

end UtilityCss
