import UtilityCss.Proofs.Candidate.Reading
import UtilityCss.Proofs.Variant.Stock
import UtilityCss.Variant.Resolution

/-!
# What a variant puts in front of a block

A wrap gives the text in front of the braces of a block, by its selector or its at-rule. With a
brace or a semicolon in that text, the block would begin or end at another place than the
stylesheet means; a text without these characters is *harmless*. A wrap takes texts from the
table, from the theme, and from the variant. Those of the stock table and the stock theme are
harmless, and so are the names, keys and selectors of a variant that is read. What is left is the
text in the brackets behind a name, which nothing looks through.

* `Relation.isBlockFree_of_compound?`, `Query.isBlockFree_of_wrap?`: what is built of a text
  is as harmless as the text;
* `VariantTable.isBlockFree_of_stock`: the stock variants add only harmless texts;
* `Variant.isGuarded_of_read`: what is read is harmless, except in the brackets behind a name;
* `Variant.isBlockFree_iff_bracketed`: the wrap of a variant is harmless exactly if the text in
  these brackets is.
-/

namespace UtilityCss

/-! ## Texts -/

/-- Whether a character begins or ends a block, or ends a declaration. -/
def isBlockChar (c : Char) : Bool :=
  ['\x7b', '\x7d', ';'].contains c

namespace Text

/-- Whether a text is harmless: no character of it begins or ends a block, or ends a
    declaration. -/
def isBlockFree (s : Text) : Bool :=
  !s.any isBlockChar

@[simp] theorem isBlockFree_nil : isBlockFree [] = true := rfl

@[simp] theorem isBlockFree_cons (c : Char) (s : Text) :
    isBlockFree (c :: s) = (!isBlockChar c && isBlockFree s) := by
  simp [isBlockFree]

@[simp] theorem isBlockFree_append (s t : Text) :
    isBlockFree (s ++ t) = (isBlockFree s && isBlockFree t) := by
  simp [isBlockFree]

theorem isBlockFree_iff {s : Text} : s.isBlockFree = true ↔ ∀ c ∈ s, isBlockChar c = false := by
  simp [isBlockFree]

theorem isBlockFree_of_subset {s t : Text} (h : t.isBlockFree = true) (hs : ∀ c ∈ s, c ∈ t) :
    s.isBlockFree = true :=
  isBlockFree_iff.2 fun c hc => isBlockFree_iff.1 h c (hs c hc)

@[simp] theorem isBlockFree_joined (s : Text) (parts : List Text) :
    isBlockFree (join [] (s :: parts)) = (s.isBlockFree && isBlockFree (join [] parts)) := by
  cases parts with
  | nil => simp
  | cons t parts => rw [join_cons_cons, List.append_nil, isBlockFree_append]

/-- What is put in for a harmless character is harmless, too. -/
theorem isBlockFree_substitute {c : Char} {value : Text} (hc : isBlockChar c = false)
    (hvalue : value.isBlockFree = true) (s : Text) :
    (s.substitute c value).isBlockFree = s.isBlockFree := by
  induction s with
  | nil => rfl
  | cons x s ih =>
    have hcons : substitute (x :: s) c value
        = (if x = c then value else [x]) ++ substitute s c value := rfl
    rw [hcons, isBlockFree_append, ih, isBlockFree_cons]
    by_cases hx : x = c
    · simp [hx, hc, hvalue]
    · simp [hx]

theorem isBlockChar_of_isBlank {c : Char} (h : isBlank c = true) : isBlockChar c = false := by
  cases hc : isBlockChar c with
  | false => rfl
  | true =>
    have hall : ['\x7b', '\x7d', ';'].any isBlank = false := by decide
    exact absurd h (List.any_eq_false.1 hall c (List.contains_iff_mem.1 hc))

@[simp] theorem isBlockFree_strip (s : Text) : s.strip.isBlockFree = s.isBlockFree := by
  obtain ⟨left, right, hs, hleft, hright⟩ := exists_eq_strip s
  have hblank {t : Text} (ht : ∀ c ∈ t, isBlank c = true) : t.isBlockFree = true :=
    isBlockFree_iff.2 fun c hc => isBlockChar_of_isBlank (ht c hc)
  have hs := congrArg isBlockFree hs
  rw [isBlockFree_append, isBlockFree_append, hblank hleft, hblank hright] at hs
  simpa using hs.symm

end Text

/-! ## Identifiers -/

theorem isBlockFree_codeEscape {c : Char} (h : c.toNat < 128) :
    (codeEscape c).isBlockFree = true :=
  of_toNat_lt (P := fun c => (codeEscape c).isBlockFree = true) (by decide) h

theorem isBlockFree_escapeInside {c : Char} (h : isBlockChar c = false) :
    (escapeInside c).isBlockFree = true := by
  rw [escapeInside]
  split
  · rfl
  · split
    · next hc => exact isBlockFree_codeEscape (by omega)
    · split
      · simp [h]
      · rw [Text.isBlockFree_cons, Text.isBlockFree_cons, h]
        rfl

theorem isBlockFree_escapeStart {c : Char} (h : isBlockChar c = false) :
    (escapeStart c).isBlockFree = true := by
  rw [escapeStart]
  split
  · next hc =>
    exact isBlockFree_codeEscape (toNat_lt_of_isDigit hc)
  · exact isBlockFree_escapeInside h

/-- The identifier of a harmless text is harmless. -/
theorem Text.isBlockFree_escapeIdentifier {s : Text} (h : s.isBlockFree = true) :
    s.escapeIdentifier.isBlockFree = true := by
  have hchar : ∀ c ∈ s, isBlockChar c = false := isBlockFree_iff.1 h
  refine escapeIdentifier_of (P := fun s => s.isBlockFree = true) ?_ rfl rfl rfl
    (fun c hc => isBlockFree_escapeInside (hchar c hc))
    fun c hc => isBlockFree_escapeStart (hchar c hc)
  intro s t hs ht
  rw [isBlockFree_append, hs, ht, Bool.true_and]

/-! ## Wraps -/

/-- Whether the texts of a wrap are harmless. -/
def Wrap.isBlockFree : Wrap → Bool
  | selector template => template.isBlockFree
  | atRule name params => name.isBlockFree && params.isBlockFree

/-- A negated condition is as harmless as the condition. -/
theorem isBlockFree_negateCondition (params : Text) :
    (negateCondition params).isBlockFree = params.isBlockFree := by
  have hsplit := congrArg Text.isBlockFree
    (List.takeWhile_append_dropWhile (p := fun c => decide (c ≠ '(')) (l := params))
  rw [Text.isBlockFree_append] at hsplit
  rw [negateCondition]
  split
  · next hnot =>
    -- The word that is dropped is harmless.
    obtain ⟨rest, hrest⟩ := List.isPrefixOf_iff_prefix.1 hnot
    rw [← hrest]
    simp [isBlockChar]
  · dsimp only
    split
    · next c condition hcondition =>
      have hc : c = '(' := by
        have := List.head?_dropWhile_not (fun c => decide (c ≠ '(')) params
        rw [hcondition] at this
        simpa using this
      split
      · simp [isBlockChar]
      · rw [← hsplit, hcondition, hc]
        simp [isBlockChar]
    · simp [isBlockChar]

namespace Relation

/-- Whether the texts that a compound root adds are harmless. -/
def isBlockFree : Relation → Bool
  | marked name combinator => name.isBlockFree && combinator.isBlockFree
  | _ => true

theorem isBlockFree_groupSelector {name : Text} {group : Option Text}
    (hname : name.isBlockFree = true) (hgroup : group.all Text.isBlockFree = true) :
    (groupSelector name group).isBlockFree = true := by
  have hmodifier : (renderModifier group).isBlockFree = true := by
    cases group with
    | none => rfl
    | some group => simpa [renderModifier, isBlockChar] using hgroup
  have hescape := Text.isBlockFree_escapeIdentifier (s := name ++ renderModifier group)
    (by simp [hname, hmodifier])
  simp [groupSelector, hescape, isBlockChar]

theorem isBlockFree_universal (selector : Text) :
    (universal selector).isBlockFree = selector.isBlockFree :=
  Text.isBlockFree_substitute rfl rfl selector

variable {r : Relation} {group : Option Text}

/-- A compound root makes a wrap neither more nor less harmless. -/
theorem isBlockFree_of_compound? (hr : r.isBlockFree = true)
    (hgroup : group.all Text.isBlockFree = true) {w w' : Wrap}
    (h : r.compound? w group = some w') : w'.isBlockFree = w.isBlockFree := by
  unfold compound? at h
  split at h
  · cases h
    simp [Wrap.isBlockFree, isBlockFree_universal, isBlockChar]
  · obtain ⟨_, h⟩ := Option.ite_none_right_eq_some.1 h
    cases h
    simp [Wrap.isBlockFree, isBlockFree_negateCondition]
  · next name combinator template =>
    simp only [isBlockFree, Bool.and_eq_true] at hr
    cases h
    have hselector := isBlockFree_groupSelector hr.1 hgroup
    simp [Wrap.isBlockFree, Text.isBlockFree_substitute _ hselector, hr.2, isBlockChar]
  · cases h
    simp [Wrap.isBlockFree, isBlockFree_universal, isBlockChar]
  · cases h
    simp [Wrap.isBlockFree, isBlockFree_universal, isBlockChar]
  · cases h

/-- A wrap is as harmless as the bracketed selector that a compound root makes it of. -/
theorem isBlockFree_of_arbitrary? (hr : r.isBlockFree = true)
    (hgroup : group.all Text.isBlockFree = true) {selector : Text} {w : Wrap}
    (h : r.arbitrary? selector group = some w) : w.isBlockFree = selector.isBlockFree := by
  unfold arbitrary? at h
  split at h
  · cases h
    simp [Wrap.isBlockFree, isBlockFree_universal, isBlockChar]
  · next name combinator =>
    simp only [isBlockFree, Bool.and_eq_true] at hr
    have hselector := isBlockFree_groupSelector hr.1 hgroup
    cases h
    dsimp only [Wrap.isBlockFree]
    split
    · simp [Text.isBlockFree_substitute _ hselector, hr.2, isBlockChar]
    · simp [hselector, hr.2, isBlockChar]
  · cases h
    simp [Wrap.isBlockFree, isBlockFree_universal, isBlockChar]
  · cases h
    simp [Wrap.isBlockFree, isBlockFree_universal, isBlockChar]
  · cases h

end Relation

/-! ## Queries -/

/-- Whether the values of a theme are harmless. -/
def Theme.isBlockFree (t : Theme) : Bool :=
  t.values.values.all Text.isBlockFree

theorem Theme.isBlockFree_of_valueFor? {t : Theme} (ht : t.isBlockFree = true) {key value : Text}
    {namespaces : List Text} (h : t.valueFor? key namespaces = some value) :
    value.isBlockFree = true := by
  obtain ⟨name, _, hvalue⟩ := Option.bind_eq_some_iff.1 h
  exact List.all_eq_true.1 ht value
    (List.mem_map_of_mem (f := Prod.snd) (OrderedMap.mem_entries_of_get? hvalue))

/-- Whether the text of an argument is harmless. -/
def Argument.isBlockFree : Argument → Bool
  | key value => value.isBlockFree
  | arbitrary value => value.isBlockFree
  | identifier name => name.isBlockFree

namespace Query

/-- Whether the texts that a query adds are harmless. -/
def isBlockFree : Query → Bool
  | position pseudoClass => pseudoClass.isBlockFree
  | size query => query.atRule.isBlockFree && query.operator.isBlockFree && query.theme.isBlockFree
  | _ => true

theorem isBlockFree_supportsCondition (value : Text) :
    (supportsCondition value).isBlockFree = value.isBlockFree := by
  rw [supportsCondition]
  split
  · rfl
  · split
    · simp [isBlockChar]
    · simp [isBlockChar]

variable {modifier : Option Text} {argument : Argument} {w : Wrap}

theorem isBlockFree_of_size? {q : SizeQuery} (hq : (size q).isBlockFree = true)
    (hkey : ∀ value, argument = .key value → value.isBlockFree = true)
    (hmodifier : modifier.all Text.isBlockFree = true) (h : q.wrap? argument modifier = some w) :
    w.isBlockFree = argument.isBlockFree := by
  simp only [isBlockFree, Bool.and_eq_true] at hq
  rw [SizeQuery.wrap?] at h
  obtain ⟨_, h⟩ := Option.ite_none_left_eq_some.1 h
  obtain ⟨size, hsize, rfl⟩ := Option.map_eq_some_iff.1 h
  have hargument : size.isBlockFree = argument.isBlockFree := by
    cases argument with
    | key value =>
      rw [Theme.isBlockFree_of_valueFor? hq.2 hsize, Argument.isBlockFree, hkey value rfl]
    | arbitrary value =>
      obtain ⟨_, hvalue⟩ := Option.ite_none_right_eq_some.1 hsize
      cases hvalue
      rfl
    | identifier name => cases hsize
  cases modifier with
  | none => simp [Wrap.isBlockFree, hq.1.1, hq.1.2, hargument, isBlockChar]
  | some name =>
    have hname : name.isBlockFree = true := hmodifier
    simp [Wrap.isBlockFree, hq.1.1, hq.1.2, hargument, hname, isBlockChar]

/-- A query makes a wrap that is as harmless as its argument. -/
theorem isBlockFree_of_wrap? {q : Query} (hq : q.isBlockFree = true)
    (hkey : ∀ value, argument = .key value → value.isBlockFree = true)
    (hmodifier : modifier.all Text.isBlockFree = true) (h : q.wrap? argument modifier = some w) :
    w.isBlockFree = argument.isBlockFree := by
  unfold wrap? at h
  split at h
  · obtain ⟨_, h⟩ := Option.ite_none_right_eq_some.1 h
    cases h
    simp [Wrap.isBlockFree, Argument.isBlockFree, isBlockChar]
  · cases h
    simp [Wrap.isBlockFree, Argument.isBlockFree, isBlockChar]
  · cases h
    simp [Wrap.isBlockFree, Argument.isBlockFree, isBlockChar]
  · cases h
    simp [Wrap.isBlockFree, Argument.isBlockFree, isBlockChar]
  · next pseudoClass value =>
    have hclass : pseudoClass.isBlockFree = true := hq
    obtain ⟨_, h⟩ := Option.ite_none_right_eq_some.1 h
    cases h
    simp [Wrap.isBlockFree, Argument.isBlockFree, hclass, isBlockChar]
  · next pseudoClass value =>
    have hclass : pseudoClass.isBlockFree = true := hq
    cases h
    simp [Wrap.isBlockFree, Argument.isBlockFree, hclass, isBlockChar]
  · cases h
    simp [Wrap.isBlockFree, Argument.isBlockFree, isBlockFree_supportsCondition, isBlockChar]
  · cases h
    simp [Wrap.isBlockFree, Argument.isBlockFree, isBlockFree_supportsCondition, isBlockChar]
  · exact isBlockFree_of_size? hq hkey hmodifier h
  · cases h

end Query

/-! ## Tables -/

/-- The behaviors that add harmless texts only. -/
inductive VariantBehavior.IsBlockFree : VariantBehavior → Prop
  | fixed {wrap : Wrap} {compounds : Bool} : wrap.isBlockFree = true →
      IsBlockFree (.fixed wrap compounds)
  | query {query : Query} {values : List Text} : query.isBlockFree = true →
      IsBlockFree (.functional query.wrap? values)
  | relation {relation : Relation} : relation.isBlockFree = true →
      IsBlockFree (.compound ⟨relation.compound?, some relation.arbitrary?⟩)

namespace VariantTable

/-- The variants of a table add harmless texts only. -/
def IsBlockFree (table : VariantTable) : Prop :=
  ∀ d ∈ table.definitions, d.behavior.IsBlockFree

theorem IsBlockFree.behavior {table : VariantTable} (h : table.IsBlockFree) {name : Text}
    {behavior : VariantBehavior} (hb : table.behavior? name = some behavior) :
    behavior.IsBlockFree := by
  obtain ⟨d, hd, rfl⟩ := Option.map_eq_some_iff.1 hb
  exact h d (List.mem_of_find?_eq_some hd)

/-- The stock variants add no harmful text unless the theme does. -/
theorem isBlockFree_of_stock {theme : Theme} (htheme : theme.isBlockFree = true)
    {table : VariantTable} (h : stock theme = .ok table) : table.IsBlockFree := by
  have htemplates : ∀ template ∈ stockTemplates, template.isBlockFree = true := by decide +kernel
  have hconditions : ∀ condition ∈ stockConditions, condition.isBlockFree = true := by
    decide +kernel
  have hrelations : ∀ p ∈ stockRelations, p.2.isBlockFree = true := by decide
  have hqueries : ∀ p ∈ unlistedQueries, p.2.isBlockFree = true := by decide
  have hoperators : ∀ operator ∈ sizeOperators, operator.isBlockFree = true := by decide
  rw [build_eq_ok h]
  intro d hd
  cases VariantDefinition.isStock_of_mem hd with
  | selector htemplate => exact .fixed (htemplates _ htemplate)
  | atRule hcondition =>
    refine .fixed ?_
    simp [Wrap.isBlockFree, hconditions _ hcondition, isBlockChar]
  | @breakpoint key =>
    have hsize : ((theme.valueFor? key ["--breakpoint"]).getD []).isBlockFree = true := by
      cases hv : theme.valueFor? key ["--breakpoint"] with
      | none => rfl
      | some value => exact Theme.isBlockFree_of_valueFor? htheme hv
    refine .fixed ?_
    simpa [Wrap.isBlockFree, isBlockChar] using hsize
  | relation hrelation => exact .relation (hrelations _ hrelation)
  | states => exact .query rfl
  | unlisted hunlisted => exact .query (hqueries _ hunlisted)
  | viewport _ hoperator =>
    refine .query ?_
    simp [Query.isBlockFree, htheme, hoperators _ hoperator, isBlockChar]
  | container _ hoperator =>
    refine .query ?_
    simp [Query.isBlockFree, htheme, hoperators _ hoperator, isBlockChar]

end VariantTable

theorem Theme.isBlockFree_stock : stock.isBlockFree = true := by
  have hall : stockVariables.all (·.2.isBlockFree) = true := by decide +kernel
  refine List.all_eq_true.2 fun value hvalue => ?_
  obtain ⟨e, he, rfl⟩ := List.mem_map.1 hvalue
  exact List.all_eq_true.1 hall e (OrderedMap.mem_of_mem_entries_ofList he)

/-! ## Names -/

theorem eq_dropFinalNewline_or (s : Text) :
    s = s.dropFinalNewline ∨ s = s.dropFinalNewline ++ ['\n'] := by
  rw [Text.dropFinalNewline]
  split
  · next h =>
    obtain ⟨t, rfl⟩ := List.getLast?_eq_some_iff.1 h
    exact .inr (by rw [List.dropLast_concat])
  · exact .inl rfl

theorem isBlockChar_of_isNameChar {c : Char} (h : isNameChar c = true) : isBlockChar c = false :=
  of_isNameChar (P := fun c => isBlockChar c = false) (by decide) h

/-- A text of name characters is harmless, and so is a line break at its end. -/
theorem isBlockFree_of_dropFinalNewline {s : Text}
    (h : ∀ c ∈ s.dropFinalNewline, isNameChar c = true) : s.isBlockFree = true := by
  have hname : (s.dropFinalNewline).isBlockFree = true :=
    Text.isBlockFree_iff.2 fun c hc => isBlockChar_of_isNameChar (h c hc)
  rcases eq_dropFinalNewline_or s with hs | hs
  · rwa [hs]
  · rw [hs, Text.isBlockFree_append, hname]
    rfl

theorem isNameChar_of_isIdentifier {s : Text} (h : s.isIdentifier = true) :
    ∀ c ∈ s.dropFinalNewline, isNameChar c = true := by
  simp only [Text.isIdentifier, Bool.and_eq_true, List.all_eq_true] at h
  exact fun c hc => isNameChar_of_isAlphanumericOr (by decide) (h.2 c hc)

theorem isNameChar_of_isKey {s : Text} (h : s.isKey = true) :
    ∀ c ∈ s.dropFinalNewline, isNameChar c = true := by
  intro c hc
  rw [Text.isKey] at h
  split at h
  · cases h
  · next first rest hs =>
    simp only [Bool.and_eq_true, List.all_eq_true] at h
    rw [hs] at hc
    rcases List.mem_cons.1 hc with rfl | hc
    · simp [isNameChar, isAlphanumericOr, h.1]
    · exact isNameChar_of_isAlphanumericOr (by decide) (h.2 c hc)

theorem isBlockFree_of_isIdentifier {s : Text} (h : s.isIdentifier = true) :
    s.isBlockFree = true :=
  isBlockFree_of_dropFinalNewline (isNameChar_of_isIdentifier h)

theorem isBlockFree_of_isKey {s : Text} (h : s.isKey = true) : s.isBlockFree = true :=
  isBlockFree_of_dropFinalNewline (isNameChar_of_isKey h)

/-! ## Reading -/

/-- The group name of an atom is harmless, if it has one. -/
def Atom.isGuarded (a : Atom) : Bool :=
  a.groupName?.all Text.isBlockFree

/-- Whether a leaf is harmless, except perhaps in the brackets behind its name. -/
def Leaf.isGuarded : Leaf → Bool
  | arbitrary selector => selector.isBlockFree
  | named (.static _) => true
  | named (.functional _ (.key value) modifier) =>
    value.isBlockFree && modifier.all Text.isBlockFree
  | named (.functional _ (.arbitrary _) modifier) => modifier.all Text.isBlockFree
  | named (.functional _ (.identifier _) _) => false

/-- The text in the brackets behind the name of a leaf. -/
def Leaf.bracketed? : Leaf → Option Text
  | named (.functional _ (.arbitrary value) _) => some value
  | _ => none

/-- A bracketed selector is looked through for harmful characters. -/
theorem Leaf.isGuarded_of_ofSelector? {s : Text} {l : Leaf} (h : ofSelector? s = some l) :
    l.isGuarded = true := by
  rw [ofSelector?] at h
  split at h
  · cases h
  · next selector _ =>
    obtain ⟨hfree, h⟩ := Option.ite_none_left_eq_some.1 h
    have hguarded : (arbitrary selector).isGuarded = true :=
      Bool.not_eq_true' _ ▸ eq_false_of_ne_true hfree
    split at h
    · obtain ⟨_, h⟩ := Option.ite_none_right_eq_some.1 h
      cases h
      exact hguarded
    · cases h
      exact hguarded

namespace Variant

/-- Whether a variant is harmless, except perhaps in the brackets behind the name of its leaf. -/
def isGuarded (v : Variant) : Bool :=
  v.leaf.isGuarded && v.outers.all Atom.isGuarded

/-- The same of one step of reading. -/
def Step.isGuarded : Step → Bool
  | leaf l => l.isGuarded
  | compound outer _ => outer.isGuarded

variable {table : VariantTable} {s : Text} {modifier : Option Text} {step : Step}

theorem isGuarded_of_ofText? {root : Text} {argument : Argument}
    (hmodifier : modifier.all Text.isBlockFree = true) (h : Argument.ofText? s = some argument) :
    (Leaf.named (.functional root argument modifier)).isGuarded = true := by
  rw [Argument.ofText?] at h
  split at h
  · obtain ⟨_, h⟩ := Option.ite_none_right_eq_some.1 h
    obtain ⟨value, _, rfl⟩ := Option.map_eq_some_iff.1 h
    exact hmodifier
  · obtain ⟨hkey, h⟩ := Option.ite_none_right_eq_some.1 h
    cases h
    simp [Leaf.isGuarded, isBlockFree_of_isKey hkey, hmodifier]

theorem isGuarded_of_stepAt? {root value : Text} (hmodifier : modifier.all Text.isBlockFree = true)
    (h : stepAt? table modifier root value = some step) : step.isGuarded = true := by
  unfold stepAt? at h
  obtain ⟨_, h⟩ := Option.ite_none_left_eq_some.1 h
  split at h
  · cases h
  · cases h
  · obtain ⟨argument, hargument, rfl⟩ := Option.map_eq_some_iff.1 h
    exact isGuarded_of_ofText? hmodifier hargument
  · split at h
    · obtain ⟨argument, hargument, rfl⟩ := Option.map_eq_some_iff.1 h
      exact isGuarded_of_ofText? hmodifier hargument
    · cases h
      cases modifier with
      | none => rfl
      | some group => exact hmodifier

theorem isGuarded_of_stepOf? (hmodifier : modifier.all Text.isBlockFree = true)
    (h : stepOf? table s modifier = some step) : step.isGuarded = true := by
  rw [stepOf?] at h
  split at h
  · cases h
    rfl
  · obtain ⟨⟨root, value⟩, _, hstep⟩ := List.exists_of_findSome?_eq_some h
    exact isGuarded_of_stepAt? hmodifier hstep

theorem isGuarded_of_step? {outermost : Bool} (h : step? table outermost s = some step) :
    step.isGuarded = true := by
  rw [step?] at h
  split at h
  · obtain ⟨l, hl, rfl⟩ := Option.map_eq_some_iff.1 h
    exact Leaf.isGuarded_of_ofSelector? hl
  · split at h
    · obtain ⟨_, h⟩ := Option.ite_none_left_eq_some.1 h
      exact isGuarded_of_stepOf? rfl h
    · next base name _ =>
      obtain ⟨hname, h⟩ := Option.ite_none_left_eq_some.1 h
      simp only [Bool.or_eq_true, Bool.not_eq_true', not_or, Bool.not_eq_false] at hname
      have hfree : (some name).all Text.isBlockFree = true := isBlockFree_of_isIdentifier hname.1.2
      exact isGuarded_of_stepOf? hfree h
    · cases h

/-- What is read is harmless, except perhaps in the brackets behind the name of its leaf. -/
theorem isGuarded_of_chainOf? {steps : Nat} {outermost : Bool} {v : Variant}
    (h : chainOf? table steps outermost s = some v) : v.isGuarded = true := by
  induction steps generalizing outermost s v with
  | zero => cases h
  | succ steps ih =>
    rw [chainOf?] at h
    split at h
    · cases h
    · next l hl =>
      cases h
      have hguarded : l.isGuarded = true := isGuarded_of_step? hl
      simp [isGuarded, ofLeaf, hguarded]
    · next outer rest hstep =>
      obtain ⟨inner, hinner, rfl⟩ := Option.map_eq_some_iff.1 h
      have houter : outer.isGuarded = true := isGuarded_of_step? hstep
      have hinner := ih hinner
      simp only [isGuarded, Bool.and_eq_true] at hinner
      simp [isGuarded, inside, houter, hinner]

/-- What is read from a text is harmless, except perhaps in the brackets behind the name of its
    leaf. -/
theorem isGuarded_of_read {settings : Settings} {v : Variant}
    (h : ofText? table settings s = some v) : v.isGuarded = true := by
  obtain ⟨_, h⟩ := Option.ite_none_left_eq_some.1 h
  exact isGuarded_of_chainOf? h

end Variant

/-! ## Resolving -/

theorem Leaf.isBlockFree_of_wrapOfSelector {selector : Text} (h : selector.isBlockFree = true) :
    (wrapOfSelector selector).1.isBlockFree = true := by
  rw [wrapOfSelector]
  split
  · have hname : (splitAtRule selector).1.isBlockFree = true :=
      Text.isBlockFree_of_subset h fun c hc => (List.takeWhile_prefix _).mem hc
    have hparams : (splitAtRule selector).2.isBlockFree = true := by
      dsimp only [splitAtRule]
      rw [Text.isBlockFree_strip]
      exact Text.isBlockFree_of_subset h fun c hc => List.mem_of_mem_drop hc
    simp [Wrap.isBlockFree, hname, hparams]
  · split
    · exact h
    · simp [Wrap.isBlockFree, h, isBlockChar]

variable {table : VariantTable} {w : Wrap}

/-- The key and the modifier of a guarded leaf are harmless. -/
theorem Leaf.isBlockFree_of_isGuarded {name : Text} {argument : Argument} {modifier : Option Text}
    (h : (named (.functional name argument modifier)).isGuarded = true) :
    (∀ value, argument = .key value → value.isBlockFree = true) ∧
      modifier.all Text.isBlockFree = true := by
  cases argument with
  | key value =>
    rw [isGuarded, Bool.and_eq_true] at h
    exact ⟨by rintro _ ⟨⟩; exact h.1, h.2⟩
  | arbitrary value => exact ⟨by rintro _ ⟨⟩, h⟩
  | identifier group => cases h

theorem Leaf.isBlockFree_of_wrapOfArgument? (htable : table.IsBlockFree) {name : Text}
    {argument : Argument} {modifier : Option Text}
    (hleaf : (named (.functional name argument modifier)).isGuarded = true)
    (h : wrapOfArgument? table name argument modifier = some w) :
    w.isBlockFree = argument.isBlockFree := by
  unfold wrapOfArgument? at h
  split at h
  · next resolve values hb =>
    cases htable.behavior hb with
    | query hquery =>
      have hguarded := isBlockFree_of_isGuarded hleaf
      exact Query.isBlockFree_of_wrap? hquery hguarded.1 hguarded.2 h
  · next root selector hb =>
    cases htable.behavior hb with
    | relation hrelation => exact Relation.isBlockFree_of_arbitrary? hrelation hleaf h
  · cases h

theorem Leaf.isBlockFree_of_wrap? (htable : table.IsBlockFree) {l : Leaf}
    (hl : l.isGuarded = true) {compounds : Bool} (h : l.wrap? table = some (w, compounds)) :
    w.isBlockFree = l.bracketed?.all Text.isBlockFree := by
  unfold wrap? at h
  split at h
  · next selector =>
    have hw := isBlockFree_of_wrapOfSelector hl
    rw [Option.some.inj h] at hw
    exact hw
  · split at h
    · next hb =>
      cases h
      cases htable.behavior hb with
      | fixed hwrap => exact hwrap
    · cases h
  · next name argument modifier =>
    obtain ⟨w', hw', h⟩ := Option.map_eq_some_iff.1 h
    cases h
    rw [isBlockFree_of_wrapOfArgument? htable hl hw']
    cases argument with
    | key value => exact (Bool.and_eq_true_iff.1 hl).1
    | arbitrary value => rfl
    | identifier group => cases hl

namespace Variant

theorem isBlockFree_of_compound? (htable : table.IsBlockFree) {outer : Atom}
    (houter : outer.isGuarded = true) {w' : Wrap} (h : compound? table outer w = some w') :
    w'.isBlockFree = w.isBlockFree := by
  rw [compound?] at h
  split at h
  · next root hb =>
    cases htable.behavior hb with
    | relation hrelation => exact Relation.isBlockFree_of_compound? hrelation houter h
  · cases h

/-- The compound roots around a wrap make it neither more nor less harmless. -/
theorem isBlockFree_of_foldr (htable : table.IsBlockFree) {outers : List Atom}
    (houters : outers.all Atom.isGuarded = true) {w' : Wrap}
    (h : outers.foldr (fun outer inner => inner.bind (compound? table outer)) (some w) = some w') :
    w'.isBlockFree = w.isBlockFree := by
  induction outers generalizing w' with
  | nil =>
    cases h
    rfl
  | cons outer outers ih =>
    rw [List.all_cons, Bool.and_eq_true] at houters
    obtain ⟨inner, hinner, h⟩ := Option.bind_eq_some_iff.1 h
    rw [isBlockFree_of_compound? htable houters.1 h, ih houters.2 hinner]

/-- Of the variants that are read, a harmful text in a wrap comes from the brackets behind the
    name of the leaf. -/
theorem isBlockFree_of_wrap? (htable : table.IsBlockFree) {v : Variant}
    (hv : v.isGuarded = true) (h : v.wrap? table = some w) :
    w.isBlockFree = v.leaf.bracketed?.all Text.isBlockFree := by
  rw [isGuarded, Bool.and_eq_true] at hv
  rw [wrap?] at h
  split at h
  · cases h
  · next inner compounds hleaf =>
    obtain ⟨_, h⟩ := Option.ite_none_right_eq_some.1 h
    rw [isBlockFree_of_foldr htable hv.2 h, Leaf.isBlockFree_of_wrap? htable hv.1 hleaf]

/-- *Braces and semicolons come from brackets*: among the stock variants, the wrap of a variant
    that is read holds no brace and no semicolon, unless the text in the brackets behind a name
    does. Bracketed selectors are no exception, as these are looked through. -/
theorem isBlockFree_iff_bracketed {table : VariantTable}
    (htable : VariantTable.stock .stock = .ok table) {settings : Settings} {s : Text} {v : Variant}
    (hv : ofText? table settings s = some v) {w : Wrap} (hw : v.wrap? table = some w) :
    w.isBlockFree = true ↔ ∀ value, v.leaf.bracketed? = some value → value.isBlockFree = true := by
  have hfree := VariantTable.isBlockFree_of_stock Theme.isBlockFree_stock htable
  rw [isBlockFree_of_wrap? hfree (isGuarded_of_read hv) hw, Option.all_eq_true]

/-- A group with a name, a negation, and an attribute in brackets. -/
theorem isBlockFree_iff_bracketed_of_group :
    let table : VariantTable := ⟨VariantTable.stockDefinitions .stock, true⟩
    let v : Variant := ⟨[.functional "group" (.identifier "x") none, .static "not"],
      .named (.functional "data" (.arbitrary "a=b") none)⟩
    let w : Wrap := .selector "&:is(:where(.group\\/x):not(*[data-a=b]) *)"
    VariantTable.stock .stock = .ok table ∧
      ofText? table .stock "group-not-data-[a=b]/x" = some v ∧ v.wrap? table = some w ∧
      w.isBlockFree = true := by
  intro table v w
  have hread : ofText? table .stock "group-not-data-[a=b]/x" = some v := by
    subst table v
    rw [VariantTable.stockDefinitions, VariantTable.stockBreakpoints, Theme.keysUnder_stock]
    decide +kernel
  have hwrap : v.wrap? table = some w := by
    subst table v
    rw [VariantTable.stockDefinitions, VariantTable.stockBreakpoints, Theme.keysUnder_stock]
    decide +kernel
  refine ⟨VariantTable.stock_eq_ok, hread, hwrap,
    (isBlockFree_iff_bracketed VariantTable.stock_eq_ok hread hwrap).2 ?_⟩
  rintro value ⟨⟩
  rfl

/-- The brackets behind a name are not looked through. -/
theorem not_isBlockFree_of_data :
    let table : VariantTable := ⟨VariantTable.stockDefinitions .stock, true⟩
    let v : Variant := ⟨[], .named (.functional "data" (.arbitrary "a;b") none)⟩
    VariantTable.stock .stock = .ok table ∧ Text.hasBlank "data-[a;b]" = false ∧
      ofText? table .stock "data-[a;b]" = some v ∧
      v.wrap? table = some (.selector "&[data-a;b]") ∧
      (Wrap.selector "&[data-a;b]").isBlockFree = false := by
  intro table v
  have hread : ofText? table .stock "data-[a;b]" = some v := by
    subst table v
    rw [VariantTable.stockDefinitions, VariantTable.stockBreakpoints, Theme.keysUnder_stock]
    decide +kernel
  have hwrap : v.wrap? table = some (.selector "&[data-a;b]") := by
    subst table v
    rw [VariantTable.stockDefinitions, VariantTable.stockBreakpoints, Theme.keysUnder_stock]
    decide +kernel
  exact ⟨VariantTable.stock_eq_ok, by decide, hread, hwrap, by decide⟩

end Variant

end UtilityCss
