import UtilityCss.Proofs.Bracket.Restoring
import UtilityCss.Proofs.Variant.Regular

/-!
# Rendered variants

A variant is rendered in one way, but may have been read from several texts. The name `@` may have
stood with or without a hyphen, and a space in brackets may have been written as an underscore. The
segment that a variant is rendered as is *respelled*: it differs from the text that was read only
in these, so it falls into the same parts, and the same roots are found in it. What may be lost is
the text in the brackets of the leaf, if it is not restorable, and the name `@`, if its key goes on
with it to another name.

* `ChainSpelling.render_eq`: a rendered variant is its chain and its modifier;
* `ChainSpelling.respelled`: how the chain differs from the text that was read;
* `Variant.ofText?_render`: which variants are read again from the segment they are rendered as.
-/

namespace UtilityCss

/-! ## Rendering -/

theorem renderModifier_none : renderModifier none = [] := rfl

/-- How a leaf is written without its modifier. -/
def Leaf.base : Leaf → Text
  | named (.static name) => name
  | named (.functional name argument _) =>
    name ++ Variant.joint name ++ underscored argument.render
  | arbitrary selector => Bracket.square.enclose (underscored selector)

theorem Leaf.render_eq (l : Leaf) : l.render = l.base ++ renderModifier l.modifier? := by
  cases l with
  | named atom =>
    cases atom with
    | static name => exact (List.append_nil name).symm
    | functional name argument modifier => rfl
  | arbitrary selector => simp [render, base, modifier?, Text.join_eq_flatten, Bracket.enclose,
      Bracket.opener, Bracket.closer, renderModifier]

namespace Variant

/-- How a variant is written without its modifier. -/
def base (v : Variant) : Text :=
  v.outers.flatMap (fun outer => outer.name ++ ['-']) ++ v.leaf.base

theorem base_ofLeaf (l : Leaf) : (ofLeaf l).base = l.base := rfl

theorem base_inside (outer : Atom) (v : Variant) :
    (inside outer v).base = outer.name ++ '-' :: v.base := by
  simp [base, inside]

theorem groupName?_inside (outer : Atom) (v : Variant) :
    (inside outer v).groupName? = v.groupName?.or outer.groupName? := by
  rw [groupName?, inside, List.reverse_cons, List.findSome?_append, List.findSome?_singleton]
  rfl

end Variant

namespace ChainSpelling

variable {table : VariantTable} {v : Variant} {s : Text}

theorem groupName?_eq_none (h : ChainSpelling table v s) (hv : v.modifier? = none) :
    v.groupName? = none ∧ v.leaf.modifier? = none := by
  induction h with
  | leaf => exact ⟨rfl, hv⟩
  | root _ _ _ _ _ hinner ih =>
    obtain ⟨hgroup, hleaf⟩ := ih hinner
    rw [Variant.groupName?_inside, hgroup, Option.none_or]
    exact ⟨hv, hleaf⟩

/-- A rendered variant is its chain and its modifier. -/
theorem render_eq (h : ChainSpelling table v s) :
    v.render = v.base ++ renderModifier v.modifier? := by
  cases h with
  | leaf =>
    rw [Variant.render, Leaf.render_eq]
    exact List.append_nil _
  | @root outer inner _ _ _ _ _ _ hinner hnone =>
    obtain ⟨hgroup, hleaf⟩ := hinner.groupName?_eq_none hnone
    rw [Variant.render, Variant.groupName?_inside, hgroup, Option.none_or, Leaf.render_eq]
    have hmodifier : (Variant.inside outer inner).leaf.modifier? = none := hleaf
    rw [hmodifier, renderModifier_none, List.append_nil]
    rfl

end ChainSpelling

theorem ChainSpelling.isIdentifier_modifier {table : VariantTable} {v : Variant} {s : Text}
    (h : ChainSpelling table v s) : v.modifier?.all Text.isIdentifier = true := by
  cases h with
  | leaf hleaf =>
    cases hleaf with
    | static => rfl
    | functional _ _ _ _ _ _ hmodifier => exact hmodifier
    | selector => rfl
  | root houter =>
    cases houter with
    | static => rfl
    | group _ hgroup => exact hgroup

/-! ## Respelled texts -/

/-- A text is another with underscores for its spaces, up to plain text in front. -/
inductive Respelled : Text → Text → Prop
  | mk {front front' back : Text} : (∀ c ∈ front, isRootChar c = true) →
      (∀ c ∈ front', isRootChar c = true) →
      Respelled (front ++ back) (front' ++ underscored back)

namespace Respelled

variable {s t front back : Text} {parts : List Text} {limit : Int}

theorem of_rootChars {t : Text} (hs : ∀ c ∈ s, isRootChar c = true)
    (ht : ∀ c ∈ t, isRootChar c = true) : Respelled s t := by
  have h := @Respelled.mk s t [] hs ht
  rwa [underscored_nil, List.append_nil, List.append_nil] at h

theorem append_left (h : Respelled s t) (hfront : ∀ c ∈ front, isRootChar c = true) :
    Respelled (front ++ s) (front ++ t) := by
  cases h with
  | mk hs ht =>
    rw [← List.append_assoc, ← List.append_assoc]
    exact .mk (List.forall_mem_append.2 ⟨hfront, hs⟩) (List.forall_mem_append.2 ⟨hfront, ht⟩)

theorem segments_append (hfront : ∀ c ∈ front, isRootChar c = true) (s : Text) :
    (front ++ s).segments '/' = (s.segments '/').modifyHead (front ++ ·) := by
  obtain ⟨hplain, hslash, hbackslash⟩ := plain_of_rootChars hfront
  have hdivide := Nesting.divide_plain hplain hslash
  have hend := Nesting.foldl_step_of_strictRun? hbackslash (@Nesting.strictRun?_plain 0 _ hplain)
  rw [Text.segments, Nesting.divide_append hbackslash (congrArg Prod.snd hdivide), hend]
  rfl

/-- Respelled texts fall into the same parts, respelled. -/
theorem segments (h : Respelled s t) (hback : ' ' ∉ back)
    (hs : (s ++ back).segments '/' = s :: parts) :
    (t ++ back).segments '/' = t :: parts.map underscored := by
  cases h with
  | @mk front front' rest hfront hfront' =>
    rw [List.append_assoc, segments_append hfront] at hs
    -- The plain text in front belongs to the first part.
    have hrest : (rest ++ back).segments '/' = rest :: parts := by
      obtain ⟨part, parts', hparts⟩ : ∃ part parts', (rest ++ back).segments '/' = part :: parts' :=
        ⟨_, _, rfl⟩
      rw [hparts, List.modifyHead_cons, List.cons.injEq, List.append_cancel_left_eq] at hs
      rw [hparts, hs.1, hs.2]
    have hunderscored :=
      @Text.segments_underscored '/' (by decide) (by decide) (rest ++ back)
    rw [hrest, underscored_append, underscored_eq_self.2 hback] at hunderscored
    rw [List.append_assoc, segments_append hfront', hunderscored]
    rfl

theorem isBalanced_append (hfront : ∀ c ∈ front, isRootChar c = true) (s : Text) :
    (front ++ s).isBalanced limit = s.isBalanced limit := by
  obtain ⟨hplain, _, hbackslash⟩ := plain_of_rootChars hfront
  rw [Text.isBalanced, Nesting.strictRun?_append hbackslash, Nesting.strictRun?_plain hplain]
  rfl

/-- Respelled texts have the same groups. -/
theorem isBalanced (h : Respelled s t) (hback : ' ' ∉ back) :
    (t ++ back).isBalanced limit = (s ++ back).isBalanced limit := by
  cases h with
  | @mk front front' rest hfront hfront' =>
    rw [List.append_assoc, List.append_assoc, isBalanced_append hfront, isBalanced_append hfront']
    have hunderscored := Text.isBalanced_underscored (rest ++ back) limit
    rwa [underscored_append, underscored_eq_self.2 hback] at hunderscored

end Respelled

/-! ## What is rendered is respelled -/

/-- Whether a leaf is read again from the text that it is rendered as: the text in its brackets is
    restorable, and no key goes on with the name `@` to another name. -/
def Leaf.isRestorable : Leaf → Bool
  | named (.functional name (.key key) _) => name ≠ ['@'] || !Variant.isSizeKey key
  | named (.functional _ (.arbitrary value) _) => value.isRestorable
  | arbitrary selector => selector.isRestorable
  | _ => true

variable {table : VariantTable} {v : Variant} {l : Leaf} {s : Text}

theorem underscored_of_isKey {key : Text} (h : key.isKey = true) : underscored key = key :=
  underscored_eq_self.2 fun hmem => absurd (Variant.isRootChar_of_isKey h _ hmem) (by decide)

theorem isRootChar_of_contains (htable : table.isRegular = true) {name : Text}
    (h : table.contains name = true) : ∀ c ∈ name, isRootChar c = true := by
  obtain ⟨behavior, hb⟩ := VariantTable.exists_behavior?_of_contains h
  exact (VariantTable.regularName htable hb).rootChars

theorem isRootChar_of_joint {name joint : Text} (h : Joint name joint) :
    ∀ c ∈ joint, isRootChar c = true := by
  cases h with
  | hyphen => exact List.forall_mem_singleton.2 (by decide)
  | «at» => exact List.forall_mem_nil _

theorem joint_variantJoint (name : Text) : Joint name (Variant.joint name) := by
  rw [Variant.joint]
  split
  · next h => exact .at h
  · exact .hyphen

theorem underscored_enclose (content : Text) :
    underscored (Bracket.square.enclose content) = Bracket.square.enclose (underscored content) := by
  rw [Bracket.enclose, underscored_append, underscored_append]
  rfl

theorem render_arbitrary (value : Text) :
    (Argument.arbitrary value).render = Bracket.square.enclose value := by
  simp [Argument.render, Text.join_eq_flatten, Bracket.enclose, Bracket.opener, Bracket.closer]

theorem isFixed_contains {name : Text} (h : Variant.isFixed table name = true) :
    table.contains name = true := by
  unfold Variant.isFixed at h
  split at h
  · next hb => exact VariantTable.contains_of_behavior? hb
  · cases h

/-- A restorable leaf is rendered as a text that is respelled. -/
theorem LeafSpelling.respelled (htable : table.isRegular = true) (h : LeafSpelling table l s)
    (hl : l.isRestorable = true) : Respelled s l.base := by
  cases h with
  | static hfixed =>
    have hname := isRootChar_of_contains htable (isFixed_contains hfixed)
    exact .of_rootChars hname hname
  | @functional name joint text argument modifier hne hfree hcontains _ hjoint hargument hmodifier =>
    have hname := isRootChar_of_contains htable hcontains
    have hfront := List.forall_mem_append.2 ⟨hname, isRootChar_of_joint hjoint⟩
    have hfront' := List.forall_mem_append.2 ⟨hname, isRootChar_of_joint (joint_variantJoint name)⟩
    cases hargument with
    | key hkey =>
      have htext := Variant.isRootChar_of_isKey hkey
      rw [Leaf.base, Argument.render, underscored_of_isKey hkey]
      exact .of_rootChars (List.forall_mem_append.2 ⟨hfront, htext⟩)
        (List.forall_mem_append.2 ⟨hfront', htext⟩)
    | bracketed hvalue =>
      rw [Leaf.base, render_arbitrary, underscored_enclose,
        Text.underscored_of_decode (decodeNonempty?_eq_some.1 hvalue).1 hl, ← underscored_enclose]
      exact .mk hfront hfront'
  | @selector content value hselector =>
    obtain ⟨_, hvalue, ⟨⟩⟩ := Leaf.decodeNonempty?_of_ofSelector? hselector
    rw [Leaf.base, Text.underscored_of_decode (decodeNonempty?_eq_some.1 hvalue).1 hl,
      ← underscored_enclose]
    exact @Respelled.mk [] [] _ (List.forall_mem_nil _) (List.forall_mem_nil _)

theorem OuterAtom.behavior? {outer : Atom} (h : OuterAtom table outer) :
    ∃ root, table.behavior? outer.name = some (.compound root) := by
  cases h with
  | static hb => exact ⟨_, hb⟩
  | group hb => exact ⟨_, hb⟩

theorem OuterAtom.eq_rootAtom {outer : Atom} (h : OuterAtom table outer) :
    outer = Variant.rootAtom outer.name outer.groupName? := by
  cases h with
  | static => rfl
  | group => rfl

/-- Behind a compound root stands a hyphen. -/
theorem OuterAtom.eq_hyphen (htable : table.isRegular = true) {outer : Atom}
    (h : OuterAtom table outer) {joint : Text} (hjoint : Joint outer.name joint) :
    joint = ['-'] := by
  cases hjoint with
  | hyphen => rfl
  | «at» hat =>
    obtain ⟨root, hb⟩ := h.behavior?
    have hname := (VariantTable.regularName htable hb).at_not_mem (.inr rfl)
    rw [hat] at hname
    exact absurd List.mem_cons_self hname

/-- The chain of a variant with a restorable leaf is rendered as a text that is respelled. -/
theorem ChainSpelling.respelled (htable : table.isRegular = true) (h : ChainSpelling table v s)
    (hv : v.leaf.isRestorable = true) : Respelled s v.base := by
  induction h with
  | leaf hleaf => exact hleaf.respelled htable hv
  | @root outer inner joint text houter _ _ hjoint _ _ ih =>
    obtain ⟨root, hb⟩ := houter.behavior?
    have hname := (VariantTable.regularName htable hb).rootChars
    have hhyphen := isRootChar_of_joint (@Joint.hyphen outer.name)
    rw [houter.eq_hyphen htable hjoint, Variant.base_inside,
      List.append_cons outer.name '-' inner.base]
    exact (ih hv).append_left (List.forall_mem_append.2 ⟨hname, hhyphen⟩)

/-- Where a leaf is rendered in another way, it holds a bracket or the name `@`. -/
theorem LeafSpelling.eq_or_mem (h : LeafSpelling table l s) :
    s = l.base ∨ '[' ∈ l.base ∨ '@' ∈ l.base := by
  cases h with
  | static => exact .inl rfl
  | @functional name joint text argument modifier _ _ _ _ hjoint hargument _ =>
    cases hargument with
    | key hkey =>
      by_cases hat : name = ['@']
      · subst hat
        exact .inr (.inr List.mem_cons_self)
      · cases hjoint with
        | hyphen =>
          rw [Leaf.base, Variant.joint, if_neg hat, Argument.render, underscored_of_isKey hkey]
          exact .inl rfl
        | «at» h => exact absurd h hat
    | bracketed =>
      rw [Leaf.base, render_arbitrary, underscored_enclose]
      exact .inr (.inl (List.mem_append_right _ List.mem_cons_self))
  | selector => exact .inr (.inl List.mem_cons_self)

theorem ChainSpelling.eq_or_mem (htable : table.isRegular = true) (h : ChainSpelling table v s) :
    s = v.base ∨ '[' ∈ v.base ∨ '@' ∈ v.base := by
  induction h with
  | leaf hleaf => exact hleaf.eq_or_mem
  | @root outer inner joint text houter _ _ hjoint _ _ ih =>
    rw [houter.eq_hyphen htable hjoint, Variant.base_inside]
    rcases ih with ih | ih | ih
    · exact .inl (by simp [ih])
    · exact .inr (.inl (List.mem_append_right _ (.tail _ ih)))
    · exact .inr (.inr (List.mem_append_right _ (.tail _ ih)))

theorem LeafSpelling.head?_base (h : LeafSpelling table l s) : l.base.head? = s.head? := by
  cases h with
  | static => rfl
  | functional hne =>
    rw [Leaf.base, List.append_assoc, List.append_assoc, List.head?_append_of_ne_nil _ hne,
      List.head?_append_of_ne_nil _ hne]
  | selector => rfl

/-- However a variant is rendered, it begins as the text that was read. -/
theorem ChainSpelling.head?_base (h : ChainSpelling table v s) : v.base.head? = s.head? := by
  cases h with
  | leaf hleaf => exact hleaf.head?_base
  | root _ hne =>
    rw [Variant.base_inside, List.append_assoc, List.head?_append_of_ne_nil _ hne,
      List.head?_append_of_ne_nil _ hne]

theorem ChainSpelling.isEmpty_base (h : ChainSpelling table v s) (back : Text) :
    (v.base ++ back).isEmpty = (s ++ back).isEmpty := by
  have hnil : v.base = [] ↔ s = [] := by
    rw [← List.head?_eq_none_iff, h.head?_base, List.head?_eq_none_iff]
  rw [Bool.eq_iff_iff, List.isEmpty_iff, List.isEmpty_iff, List.append_eq_nil_iff,
    List.append_eq_nil_iff, hnil]

/-! ## Reading what is rendered -/

namespace Variant

variable {modifier : Option Text} {outermost : Bool}

theorem step?_of_segments {base : Text} {step : Step} (hhead : base.head? ≠ some '[')
    (hs : s.segments '/' = base :: modifier.toList) (hbase : base ≠ [])
    (hmodifier : modifier.all Text.isIdentifier = true)
    (hnone : outermost = false → modifier = none)
    (h : stepOf? table base modifier = some step) : step? table outermost s = some step := by
  have hhead' : s.head? ≠ some '[' := by
    rwa [eq_of_segments hs, List.head?_append_of_ne_nil _ hbase]
  rw [step?, if_neg (by simp [hhead']), hs]
  cases modifier with
  | none =>
    rw [Option.toList_none]
    dsimp only
    rw [if_neg (by simpa using hbase), h]
  | some name =>
    have houtermost : outermost = true := by
      cases outermost with
      | false => cases hnone rfl
      | true => rfl
    rw [Option.toList_some]
    dsimp only
    rw [if_neg, h]
    simpa [hbase, houtermost] using hmodifier

/-- No name is found in front of a bracket. -/
theorem stepOf?_of_head? (htable : table.isRegular = true) (h : s.head? = some '[') :
    stepOf? table s modifier = none := by
  obtain ⟨t, rfl⟩ := List.head?_eq_some_iff.1 h
  have hfixed : isFixed table ('[' :: t) = false :=
    isFixed_eq_false htable (.inl List.mem_cons_self)
  rw [stepOf?, hfixed, Bool.and_false, if_neg Bool.false_ne_true]
  rfl

theorem space_not_mem_renderModifier (h : modifier.all Text.isIdentifier = true) :
    ' ' ∉ renderModifier modifier := by
  cases modifier with
  | none => exact List.not_mem_nil
  | some name =>
    have hname := isRootChar_of_isIdentifier h
    intro hmem
    rcases List.mem_cons.1 hmem with hmem | hmem
    · cases hmem
    · exact absurd (hname _ hmem) (by decide)

/-- Respelled texts in front of a modifier are cut off from it alike. -/
theorem segments_of_respelled {base base' : Text} (h : Respelled base base')
    (hmodifier : modifier.all Text.isIdentifier = true)
    (hs : s.segments '/' = base :: modifier.toList) :
    (base' ++ renderModifier modifier).segments '/' = base' :: modifier.toList := by
  have hspace := space_not_mem_renderModifier hmodifier
  rw [eq_of_segments hs] at hs
  rw [h.segments hspace hs]
  cases modifier with
  | none => rfl
  | some name =>
    have hname : underscored name = name :=
      underscored_eq_self.2 fun hmem => hspace (.tail _ hmem)
    rw [Option.toList_some, List.map_singleton, hname]

/-- A restorable text in brackets is decoded again. -/
theorem decodeNonempty?_underscored {content value : Text}
    (h : decodeNonempty? content = some value) (hvalue : value.isRestorable = true) :
    decodeNonempty? (underscored value) = some value := by
  obtain ⟨hdecode, hne⟩ := decodeNonempty?_eq_some.1 h
  exact decodeNonempty?_eq_some.2 ⟨(Text.decode_underscored hdecode).2 hvalue, hne⟩

/-- A restorable selector is found again in its brackets. -/
theorem step?_selector {content value : Text}
    (h : Leaf.ofSelector? content = some (.arbitrary value)) (hvalue : value.isRestorable = true) :
    step? table outermost (Bracket.square.enclose (underscored value))
      = some (.leaf (.arbitrary value)) := by
  obtain ⟨_, hdecode, ⟨⟩⟩ := Leaf.decodeNonempty?_of_ofSelector? h
  have hselector : Leaf.ofSelector? (underscored value) = some (.arbitrary value) := by
    rw [← h, Leaf.ofSelector?, Leaf.ofSelector?, decodeNonempty?_underscored hdecode hvalue, hdecode]
  have hhead : (Bracket.square.enclose (underscored value)).head? = some '[' :=
    Bracket.head?_enclose .square _
  have hends : (Bracket.square.enclose (underscored value)).endsWith "]" = true :=
    Bracket.endsWith_enclose .square _
  rw [step?, if_pos (by rw [hhead, hends]; rfl), Bracket.inner_enclose, hselector]
  rfl

/-- A restorable leaf is found again behind the name that it is rendered with. -/
theorem stepOf?_leaf_base (htable : table.isRegular = true) (hleaf : LeafSpelling table l s)
    (h : stepOf? table s l.modifier? = some (.leaf l)) (hl : l.isRestorable = true) :
    stepOf? table l.base l.modifier? = some (.leaf l) := by
  cases hleaf with
  | static => exact h
  | @functional name joint text argument modifier hne hfree hcontains hfixed hjoint hargument _ =>
    cases hargument with
    | key hkey =>
      rw [Leaf.base, Argument.render, underscored_of_isKey hkey]
      by_cases hat : name = ['@']
      · -- No hyphen is rendered behind `@`, whether there was one or not.
        subst hat
        rw [Variant.joint, if_pos rfl]
        exact stepOf?_at htable hcontains hkey (by simpa [Leaf.isRestorable] using hl)
      · cases hjoint with
        | hyphen => rwa [Variant.joint, if_neg hat]
        | «at» hname => exact absurd hname hat
    | bracketed hvalue =>
      rw [Leaf.base, render_arbitrary, underscored_enclose]
      exact stepOf?_bracketed htable hne hcontains hfixed (decodeNonempty?_underscored hvalue hl)
  | selector =>
    rw [stepOf?_of_head? htable rfl] at h
    cases h

/-- A restorable leaf is found again in the text that it is rendered as. -/
theorem step?_leaf_base (htable : table.isRegular = true)
    (h : step? table outermost s = some (.leaf l)) (hl : l.isRestorable = true) :
    step? table outermost (l.base ++ renderModifier l.modifier?) = some (.leaf l) := by
  rcases step?_eq_some h with ⟨content, value, rfl, hselector, ⟨⟩⟩ | ⟨base, modifier, hs, h⟩
  · have hnone : (Leaf.arbitrary value).modifier? = none := rfl
    rw [hnone, renderModifier_none, List.append_nil]
    exact step?_selector hselector hl
  · obtain ⟨hbase, hmodifier, hnone, h⟩ := h
    cases spelling_of_stepOf? hmodifier h with
    | leaf hleaf hl' =>
      subst hl'
      have hhead : l.base.head? ≠ some '[' := by
        rw [hleaf.head?_base]
        intro hhead
        rw [stepOf?_of_head? htable hhead] at h
        cases h
      have hne : l.base ≠ [] := by
        rwa [Ne, ← List.head?_eq_none_iff, hleaf.head?_base, List.head?_eq_none_iff]
      exact step?_of_segments hhead (segments_of_respelled (hleaf.respelled htable hl) hmodifier hs)
        hne hmodifier hnone (stepOf?_leaf_base htable hleaf h hl)

theorem isFixed_eq_false_of_compound {base rest : Text} {outer : Atom}
    (h : stepOf? table base none = some (.compound outer rest)) : isFixed table base = false := by
  refine eq_false_of_ne_true fun hfixed => ?_
  rw [stepOf?, hfixed, Option.isNone_none, Bool.and_true, if_pos rfl] at h
  cases h

/-- A compound root is found again in front of a text that is respelled. -/
theorem step?_compound_base (htable : table.isRegular = true) {outer : Atom} {rest rest' : Text}
    (h : step? table outermost s = some (.compound outer rest)) (hrest : Respelled rest rest')
    (hhead : rest'.head? = rest.head?) (hor : rest = rest' ∨ '[' ∈ rest' ∨ '@' ∈ rest') :
    step? table outermost (outer.name ++ '-' :: rest' ++ renderModifier outer.groupName?)
      = some (.compound outer rest') := by
  rcases step?_eq_some h with ⟨_, _, _, _, ⟨⟩⟩ | ⟨base, modifier, hs, h⟩
  obtain ⟨hbase, hmodifier, hnone, h⟩ := h
  cases spelling_of_stepOf? hmodifier h with
  | @compound _ joint _ houter hgroup hne hfree hjoint hne' hhead' =>
    subst hgroup
    obtain ⟨root, hb⟩ := houter.behavior?
    have hname := (VariantTable.regularName htable hb).rootChars
    have hhyphen := isRootChar_of_joint (@Joint.hyphen outer.name)
    rw [houter.eq_hyphen htable hjoint] at hs h hbase
    have hbase' : Respelled (outer.name ++ ['-'] ++ rest) (outer.name ++ '-' :: rest') := by
      rw [List.append_cons outer.name '-' rest']
      exact hrest.append_left (List.forall_mem_append.2 ⟨hname, hhyphen⟩)
    -- A fixed name would be found before the root, but it holds neither a bracket nor `@`.
    have hfixed (hnone : outer.groupName? = none) :
        isFixed table (outer.name ++ '-' :: rest') = false := by
      rcases hor with rfl | hmem | hmem
      · rw [hnone] at h
        rw [List.append_cons]
        exact isFixed_eq_false_of_compound h
      · exact isFixed_eq_false htable (.inl (List.mem_append_right _ (.tail _ hmem)))
      · exact isFixed_eq_false htable (.inr (List.mem_append_right _ (.tail _ hmem)))
    have hrest' : rest' ≠ [] := by
      rwa [Ne, ← List.head?_eq_none_iff, hhead, List.head?_eq_none_iff]
    have hstep := stepOf?_compound htable hb hne hrest' (by rwa [hhead]) hfixed
    rw [← houter.eq_rootAtom] at hstep
    refine step?_of_segments ?_ (segments_of_respelled hbase' hmodifier hs) (by simp) hmodifier
      hnone hstep
    rw [List.head?_append_of_ne_nil _ hne]
    exact fun hhead => hfree.1 (List.mem_of_head? hhead)

/-- A variant with a restorable leaf is read again from its chain and its modifier. -/
theorem chainOf?_base (htable : table.isRegular = true) {steps : Nat}
    (h : chainOf? table steps outermost s = some v) (hv : v.leaf.isRestorable = true) :
    chainOf? table steps outermost (v.base ++ renderModifier v.modifier?) = some v := by
  induction steps generalizing outermost s v with
  | zero => cases h
  | succ steps ih =>
    rw [chainOf?] at h ⊢
    split at h
    · cases h
    · next leaf hstep =>
      cases h
      have hbase := step?_leaf_base htable hstep hv
      rw [base_ofLeaf, modifier?, ofLeaf]
      dsimp only
      rw [hbase]
      rfl
    · next outer rest hstep =>
      obtain ⟨inner, hinner, rfl⟩ := Option.map_eq_some_iff.1 h
      obtain ⟨⟨hchain⟩, hnone⟩ := spelling_of_chainOf? hinner
      -- The modifier belongs to the outermost step, so there is none inside.
      have hagain := ih hinner hv
      rw [hnone rfl, renderModifier_none, List.append_nil] at hstep hagain
      have hbase := step?_compound_base htable hstep (hchain.respelled htable hv) hchain.head?_base
        (hchain.eq_or_mem htable)
      rw [base_inside, modifier?, inside]
      dsimp only
      rw [hbase]
      dsimp only
      rw [hagain]
      rfl

/-- A key that goes on with the name `@` is not found behind it. -/
theorem isSizeKey_eq_false (htable : table.isRegular = true)
    (hsize : table.contains "@max" = true ∧ table.contains "@min" = true) {key : Text}
    (h : stepOf? table ('@' :: key) modifier
      = some (.leaf (.named (.functional ['@'] (.key key) modifier)))) : isSizeKey key = false := by
  refine eq_false_of_ne_true fun hkey => ?_
  obtain ⟨start, hstart, hkey⟩ := List.any_eq_true.1 hkey
  rw [Bool.and_eq_true, List.isPrefixOf_iff_prefix] at hkey
  obtain ⟨⟨rest, rfl⟩, hrest⟩ := hkey
  rw [List.drop_left] at hrest
  simp only [List.mem_cons, List.not_mem_nil, or_false] at hstart
  rcases hstart with rfl | rfl
  · cases h.symm.trans (stepOf?_size htable hsize.1 hrest)
  · cases h.symm.trans (stepOf?_size htable hsize.2 hrest)

theorem enclose_inj {content content' : Text}
    (h : Bracket.square.enclose content = Bracket.square.enclose content') : content = content' := by
  have h := congrArg Text.inner h
  rwa [Bracket.inner_enclose, Bracket.inner_enclose] at h

theorem isRestorable_of_decodeNonempty? {value : Text}
    (h : decodeNonempty? (underscored value) = some value) : value.isRestorable = true :=
  (Text.decode_underscored_iff.1 (decodeNonempty?_eq_some.1 h).1).2

/-- A leaf that is found in the text that it is rendered as is restorable. -/
theorem isRestorable_of_leafSpelling (htable : table.isRegular = true)
    (hsize : table.contains "@max" = true ∧ table.contains "@min" = true)
    (hleaf : LeafSpelling table l l.base) (h : stepOf? table l.base l.modifier? = some (.leaf l)) :
    l.isRestorable = true := by
  generalize hs : l.base = s at hleaf
  cases hleaf with
  | static => rfl
  | @functional name joint text argument modifier hne hfree hcontains hfixed hjoint hargument _ =>
    cases hargument with
    | key hkey =>
      rw [Leaf.isRestorable, Bool.or_eq_true, decide_eq_true_eq, Bool.not_eq_true']
      refine Decidable.not_or_of_imp fun hat => ?_
      subst hat
      rw [Leaf.base, Argument.render, underscored_of_isKey hkey] at h
      exact isSizeKey_eq_false htable hsize h
    | @bracketed content value hvalue =>
      rw [Leaf.base, render_arbitrary, underscored_enclose, List.append_assoc, List.append_assoc,
        List.append_cancel_left_eq, Variant.joint] at hs
      have hcontent : underscored value = content := by
        by_cases hat : name = ['@']
        · rw [if_pos hat] at hs
          cases hjoint with
          | hyphen => cases hs
          | «at» => exact enclose_inj hs
        · rw [if_neg hat] at hs
          cases hjoint with
          | hyphen => exact enclose_inj (List.cons.inj hs).2
          | «at» hname => exact absurd hname hat
      rw [← hcontent] at hvalue
      exact isRestorable_of_decodeNonempty? hvalue
  | selector hselector =>
    obtain ⟨_, hvalue, ⟨⟩⟩ := Leaf.decodeNonempty?_of_ofSelector? hselector
    rw [← enclose_inj hs] at hvalue
    exact isRestorable_of_decodeNonempty? hvalue

theorem isRestorable_of_step? (htable : table.isRegular = true)
    (hsize : table.contains "@max" = true ∧ table.contains "@min" = true)
    (h : step? table outermost (l.base ++ renderModifier l.modifier?) = some (.leaf l)) :
    l.isRestorable = true := by
  rcases step?_eq_some h with ⟨content, value, hs, hselector, ⟨⟩⟩ | ⟨base, modifier, hs, h⟩
  · obtain ⟨_, hvalue, ⟨⟩⟩ := Leaf.decodeNonempty?_of_ofSelector? hselector
    have hs : Bracket.square.enclose (underscored value) = Bracket.square.enclose content := by
      rw [← hs]
      exact (List.append_nil _).symm
    rw [← enclose_inj hs] at hvalue
    exact isRestorable_of_decodeNonempty? hvalue
  · obtain ⟨_, hmodifier, _, h⟩ := h
    cases spelling_of_stepOf? hmodifier h with
    | leaf hleaf hl =>
      subst hl
      have heq := List.append_cancel_right (eq_of_segments hs)
      rw [← heq] at hleaf h
      exact isRestorable_of_leafSpelling htable hsize hleaf h

/-- Only a variant with a restorable leaf is read again from its chain and its modifier. -/
theorem isRestorable_of_chainOf? (htable : table.isRegular = true)
    (hsize : table.contains "@max" = true ∧ table.contains "@min" = true) {steps : Nat}
    (h : chainOf? table steps outermost (v.base ++ renderModifier v.modifier?) = some v) :
    v.leaf.isRestorable = true := by
  induction steps generalizing outermost v with
  | zero => cases h
  | succ steps ih =>
    rw [chainOf?] at h
    split at h
    · cases h
    · next leaf hstep =>
      cases h
      exact isRestorable_of_step? htable hsize hstep
    · next outer rest hstep =>
      obtain ⟨inner, hinner, rfl⟩ := Option.map_eq_some_iff.1 h
      obtain ⟨_, hnone⟩ := spelling_of_chainOf? hinner
      obtain ⟨text, modifier, heq, _, hspelling⟩ := spelling_of_step? hstep
      cases hspelling with
      | compound houter hgroup _ _ hjoint =>
        subst hgroup
        have heq := List.append_cancel_right heq
        rw [houter.eq_hyphen htable hjoint, base_inside, List.append_cons,
          List.append_cancel_left_eq] at heq
        have hagain : chainOf? table steps false (inner.base ++ renderModifier inner.modifier?)
            = some inner := by
          rwa [hnone rfl, renderModifier_none, List.append_nil, heq]
        have hinner : inner.leaf.isRestorable = true := ih hagain
        exact hinner

/-- *What is restorable is read again*: a stock variant is read again from the segment that it is
    rendered as exactly if its leaf is restorable. -/
theorem ofText?_render (htable : VariantTable.stock .stock = .ok table) {settings : Settings}
    (h : ofText? table settings s = some v) :
    ofText? table settings v.render = some v ↔ v.leaf.isRestorable = true := by
  have hstock : table = ⟨VariantTable.stockDefinitions .stock, true⟩ :=
    Except.ok.inj (htable.symm.trans VariantTable.stock_eq_ok)
  have hregular : table.isRegular = true := hstock ▸ VariantTable.isRegular_stock
  have hsize : table.contains "@max" = true ∧ table.contains "@min" = true := by
    rw [hstock]
    exact VariantTable.contains_size_stock
  obtain ⟨hs, hchain⟩ := Option.ite_none_left_eq_some.1 h
  obtain ⟨⟨hspelling⟩, _⟩ := spelling_of_chainOf? hchain
  rw [hspelling.render_eq]
  constructor
  · intro hagain
    obtain ⟨_, hagain⟩ := Option.ite_none_left_eq_some.1 hagain
    exact isRestorable_of_chainOf? hregular hsize hagain
  · intro hv
    have hspace := space_not_mem_renderModifier hspelling.isIdentifier_modifier
    have hbalanced : (v.base ++ renderModifier v.modifier?).isBalanced settings.maxOpenGroups = _ :=
      (hspelling.respelled hregular hv).isBalanced hspace
    have hempty : (v.base ++ renderModifier v.modifier?).isEmpty = _ := hspelling.isEmpty_base _
    rw [ofText?, hempty, hbalanced, if_neg hs]
    exact chainOf?_base hregular hchain hv

/-- A group with a name, and an attribute with a space in brackets. -/
theorem ofText?_render_of_group :
    let table : VariantTable := ⟨VariantTable.stockDefinitions .stock, true⟩
    let v : Variant := ⟨[.functional "group" (.identifier "x") none],
      .named (.functional "data" (.arbitrary "a=b c") none)⟩
    VariantTable.stock .stock = .ok table ∧
      ofText? table .stock "group-data-[a=b_c]/x" = some v ∧
      v.leaf.isRestorable = true ∧ ofText? table .stock v.render = some v := by
  intro table v
  have hread : ofText? table .stock "group-data-[a=b_c]/x" = some v := by
    subst table v
    rw [VariantTable.stockDefinitions, VariantTable.stockBreakpoints, Theme.keysUnder_stock]
    decide +kernel
  have hleaf : v.leaf.isRestorable = true := by
    subst v
    decide +kernel
  exact ⟨VariantTable.stock_eq_ok, hread, hleaf,
    (ofText?_render VariantTable.stock_eq_ok hread).2 hleaf⟩

/-- An underscore of the text in brackets is rendered as if it were a space. -/
theorem ofText?_render_of_underscore :
    let table : VariantTable := ⟨VariantTable.stockDefinitions .stock, true⟩
    let v : Variant := ⟨[], .named (.functional "data" (.arbitrary "a_b") none)⟩
    VariantTable.stock .stock = .ok table ∧ ofText? table .stock "data-[a\\_b]" = some v ∧
      v.render = "data-[a_b]".toList ∧ ofText? table .stock v.render ≠ some v := by
  intro table v
  have hread : ofText? table .stock "data-[a\\_b]" = some v := by
    subst table v
    rw [VariantTable.stockDefinitions, VariantTable.stockBreakpoints, Theme.keysUnder_stock]
    decide +kernel
  have hagain : ofText? table .stock "data-[a_b]"
      = some ⟨[], .named (.functional "data" (.arbitrary "a b") none)⟩ := by
    subst table v
    rw [VariantTable.stockDefinitions, VariantTable.stockBreakpoints, Theme.keysUnder_stock]
    decide +kernel
  have hrender : v.render = "data-[a_b]".toList := by
    subst v
    decide +kernel
  refine ⟨VariantTable.stock_eq_ok, hread, hrender, ?_⟩
  rw [hrender, hagain]
  decide

end Variant

end UtilityCss
