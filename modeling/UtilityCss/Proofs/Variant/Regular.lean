import UtilityCss.Proofs.Bracket.Roots
import UtilityCss.Proofs.Variant.BlockFree
import UtilityCss.Proofs.Variant.Spelling

/-!
# Regular tables

A text splits into a root and a value in many ways, and the longest root that leads to a variant
counts. In a *regular* table there is little choice. The names are plain; those that go on behind
the hyphen of a compound root are all fixed, and so lead nowhere; and the names that begin with
`@` are `@` itself, `@max` and `@min`.

* `VariantTable.isRegular_stock`: the stock table is regular;
* `Variant.stepOf?_compound`, `Variant.stepOf?_bracketed`, `Variant.stepOf?_at`: what is found in a
  text that is put together from a root and its value.
-/

namespace UtilityCss

namespace VariantBehavior

/-- Whether a behavior is always the same wrap. -/
def isFixed : VariantBehavior → Bool
  | fixed _ _ => true
  | _ => false

/-- Whether a behavior is that of a compound root. -/
def isCompound : VariantBehavior → Bool
  | compound _ => true
  | _ => false

end VariantBehavior

/-- Whether a character may stand in the name of a regular variant. -/
def isRootChar (c : Char) : Bool :=
  Token.isPlain c && c ≠ '/' && c ≠ ' '

theorem isPlain_of_isRootChar {c : Char} (h : isRootChar c = true) : Token.isPlain c = true := by
  simp only [isRootChar, Bool.and_eq_true] at h
  exact h.1.1

/-- Text of such characters is plain, and nothing in it divides or escapes. -/
theorem plain_of_rootChars {s : Text} (h : ∀ c ∈ s, isRootChar c = true) :
    (∀ c ∈ s, Token.isPlain c = true) ∧ '/' ∉ s ∧ '\\' ∉ s :=
  ⟨fun c hc => isPlain_of_isRootChar (h c hc), fun hmem => absurd (h _ hmem) (by decide),
    fun hmem => absurd (h _ hmem) (by decide)⟩

namespace VariantTable

/-- Whether the names and the behaviors of a table go together as those of the stock table do. -/
def isRegular (table : VariantTable) : Bool :=
  table.definitions.all fun d =>
    d.name.all isRootChar
      && (if d.behavior.isFixed || d.behavior.isCompound then !d.name.contains '@'
        else d.name.head? ≠ some '@' || atNames.contains d.name)
      && (!d.behavior.isCompound || table.definitions.all fun e =>
        !(d.name ++ ['-']).isPrefixOf e.name || e.behavior.isFixed)

theorem isRegular_stock : isRegular ⟨stockDefinitions .stock, true⟩ = true := by
  rw [stockDefinitions, stockBreakpoints, Theme.keysUnder_stock]
  decide +kernel

theorem contains_size_stock : contains ⟨stockDefinitions .stock, true⟩ "@max" = true ∧
    contains ⟨stockDefinitions .stock, true⟩ "@min" = true := by
  rw [stockDefinitions, stockBreakpoints, Theme.keysUnder_stock]
  decide +kernel

variable {table : VariantTable} {name : Text} {behavior : VariantBehavior}

theorem exists_behavior?_of_contains (h : table.contains name = true) :
    ∃ behavior, table.behavior? name = some behavior := by
  obtain ⟨d, hd⟩ := Option.isSome_iff_exists.1 h
  exact ⟨d.behavior, by rw [behavior?, hd, Option.map_some]⟩

theorem contains_of_behavior? (h : table.behavior? name = some behavior) :
    table.contains name = true := by
  obtain ⟨d, hd, _⟩ := Option.map_eq_some_iff.1 h
  rw [contains, hd, Option.isSome_some]

theorem exists_mem_of_behavior? (h : table.behavior? name = some behavior) :
    ∃ d ∈ table.definitions, d.name = name ∧ d.behavior = behavior := by
  obtain ⟨d, hd, hbehavior⟩ := Option.map_eq_some_iff.1 h
  have hname := List.find?_some hd
  exact ⟨d, List.mem_of_find?_eq_some hd, of_decide_eq_true hname, hbehavior⟩

/-- What regularity says of one name. -/
structure RegularName (table : VariantTable) (name : Text) (behavior : VariantBehavior) : Prop where
  rootChars : ∀ c ∈ name, isRootChar c = true
  at_not_mem : behavior.isFixed = true ∨ behavior.isCompound = true → '@' ∉ name
  mem_atNames : behavior.isFixed = false → behavior.isCompound = false → name.head? = some '@' →
    name ∈ atNames
  fixed_behind : behavior.isCompound = true → ∀ longer behavior',
    table.behavior? longer = some behavior' → (name ++ ['-']) <+: longer → behavior'.isFixed = true

theorem regularName (htable : table.isRegular = true) (h : table.behavior? name = some behavior) :
    RegularName table name behavior := by
  obtain ⟨d, hd, rfl, rfl⟩ := exists_mem_of_behavior? h
  have hregular := List.all_eq_true.1 htable d hd
  rw [Bool.and_eq_true, Bool.and_eq_true, List.all_eq_true] at hregular
  obtain ⟨⟨hchars, hat⟩, hbehind⟩ := hregular
  refine ⟨hchars, fun hkind => ?_, fun hfixed hcompound hhead => ?_, fun hcompound longer _ hb hp => ?_⟩
  · rw [← Bool.or_eq_true] at hkind
    simpa [hkind] using hat
  · simpa [hfixed, hcompound, hhead] using hat
  · obtain ⟨e, he, rfl, rfl⟩ := exists_mem_of_behavior? hb
    rw [hcompound, Bool.not_true, Bool.false_or] at hbehind
    have hfixed := List.all_eq_true.1 hbehind e he
    rwa [List.isPrefixOf_iff_prefix.2 hp, Bool.not_true, Bool.false_or] at hfixed

end VariantTable

/-! ## The first split that leads on -/

/-- In a list in order, the first element with a value is the one before which all have none. -/
theorem findSome?_of_pairwise {α β : Type} {r : α → α → Prop} {l : List α} (hl : l.Pairwise r)
    {f : α → Option β} {x : α} {y : β} (hx : x ∈ l) (hfx : f x = some y)
    (h : ∀ z ∈ l, r z x → f z = none) : l.findSome? f = some y := by
  induction l with
  | nil => cases hx
  | cons z l ih =>
    obtain ⟨hz, hl⟩ := List.pairwise_cons.1 hl
    rw [List.findSome?_cons]
    rcases List.mem_cons.1 hx with rfl | hx
    · rw [hfx]
    · rw [h z List.mem_cons_self (hz x hx)]
      exact ih hl hx fun z' hz' => h z' (List.mem_cons_of_mem z hz')

namespace Variant

open VariantTable

variable {table : VariantTable} {modifier : Option Text}

theorem isFixed_eq {name : Text} {behavior : VariantBehavior}
    (h : table.behavior? name = some behavior) : isFixed table name = behavior.isFixed := by
  rw [isFixed, h]
  cases behavior <;> rfl

/-- A text is no fixed name if it holds a character that no fixed name has. -/
theorem isFixed_eq_false (htable : table.isRegular = true) {s : Text}
    (h : '[' ∈ s ∨ '@' ∈ s) : isFixed table s = false := by
  cases hb : table.behavior? s with
  | none => rw [isFixed, hb]
  | some behavior =>
    rw [isFixed_eq hb]
    have hname := regularName htable hb
    rcases h with h | h
    · exact absurd (hname.rootChars _ h) (by decide)
    · exact eq_false_of_ne_true fun hfixed => hname.at_not_mem (.inl hfixed) h

theorem stepAt?_eq_none_of_isFixed {root : Text} (value : Text)
    (h : isFixed table root = true) : stepAt? table modifier root value = none := by
  unfold stepAt?
  split
  · rfl
  · unfold isFixed at h
    split at h
    · next hb => rw [hb]
    · cases h

/-- The longest root leads on if it leads to anything. -/
theorem stepOf?_of_longestRoot {base root value : Text} {step : Step}
    (hfixed : isFixed table base = false)
    (hroot : Text.LongestRoot table.contains base root value)
    (h : stepAt? table modifier root value = some step) :
    stepOf? table base modifier = some step := by
  obtain ⟨rest, hrest⟩ := List.head?_eq_some_iff.1 (Text.head?_rootSplits.2 hroot)
  rw [stepOf?, hfixed, Bool.and_false, if_neg Bool.false_ne_true, hrest, List.findSome?_cons]
  dsimp only
  rw [h]

theorem bracketFree_of_behavior? (htable : table.isRegular = true) {name : Text}
    {behavior : VariantBehavior} (hb : table.behavior? name = some behavior) :
    Text.BracketFree name :=
  have hchars := (regularName htable hb).rootChars
  ⟨fun h => absurd (hchars _ h) (by decide), fun h => absurd (hchars _ h) (by decide)⟩

/-- Between the hyphens of a text, a longer name goes on behind a shorter one and its hyphen. -/
theorem prefix_of_append_eq {root rest longer rest' : Text}
    (h : root ++ '-' :: rest = longer ++ '-' :: rest') (hlength : root.length < longer.length) :
    (root ++ ['-']) <+: longer := by
  have hroot : (root ++ ['-']) <+: root ++ '-' :: rest := ⟨rest, by simp⟩
  have hlonger : longer <+: root ++ '-' :: rest := ⟨'-' :: rest', h.symm⟩
  exact List.prefix_of_prefix_length_le hroot hlonger (by simpa [Nat.succ_le_iff] using hlength)

/-- A name is found in front of its hyphen if the longer names behind it are all fixed. -/
theorem stepOf?_of_fixed_behind {root value : Text} {step : Step} (hne : root ≠ [])
    (hfree : Text.BracketFree root) (hcontains : table.contains root = true)
    (hbehind : ∀ longer, table.contains longer = true → (root ++ ['-']) <+: longer →
      isFixed table longer = true)
    (hfixed : modifier = none → isFixed table (root ++ '-' :: value) = false)
    (hstep : stepAt? table modifier root value = some step) :
    stepOf? table (root ++ '-' :: value) modifier = some step := by
  have hmem : (root, value) ∈ (root ++ '-' :: value).hyphenRoots table.contains :=
    Text.mem_hyphenRoots.2 ⟨rfl, hne, hfree, hcontains⟩
  have hlonger : ∀ split ∈ (root ++ '-' :: value).hyphenRoots table.contains,
      root.length < split.1.length → stepAt? table modifier split.1 split.2 = none := by
    rintro ⟨longer, rest⟩ hsplit hlength
    obtain ⟨heq, _, _, hcontains⟩ := Text.mem_hyphenRoots.1 hsplit
    exact stepAt?_eq_none_of_isFixed _ (hbehind longer hcontains (prefix_of_append_eq heq hlength))
  rw [stepOf?, if_neg]
  · rw [Text.rootSplits_eq, List.findSome?_append,
      findSome?_of_pairwise (Text.pairwise_hyphenRoots _ _) hmem hstep hlonger]
    rfl
  · rw [Bool.and_eq_true, Option.isNone_iff_eq_none, not_and, Bool.not_eq_true]
    exact hfixed

/-- The atom of a compound root; a modifier is the name of its group. -/
def rootAtom (root : Text) : Option Text → Atom
  | none => .static root
  | some group => .functional root (.identifier group) none

theorem stepAt?_compound {root rest : Text} {compound : CompoundRoot}
    (hb : table.behavior? root = some (.compound compound)) (hrest : rest ≠ [])
    (hhead : rest.head? ≠ some '[') :
    stepAt? table modifier root rest = some (.compound (rootAtom root modifier) rest) := by
  unfold stepAt?
  rw [if_neg (by simpa using hrest), hb]
  dsimp only
  rw [if_neg hhead]
  cases modifier <;> rfl

/-- A compound root is found in front of what stands inside it. -/
theorem stepOf?_compound (htable : table.isRegular = true) {root rest : Text} {compound : CompoundRoot}
    (hb : table.behavior? root = some (.compound compound)) (hne : root ≠ [])
    (hrest : rest ≠ []) (hhead : rest.head? ≠ some '[')
    (hfixed : modifier = none → isFixed table (root ++ '-' :: rest) = false) :
    stepOf? table (root ++ '-' :: rest) modifier
      = some (.compound (rootAtom root modifier) rest) := by
  refine stepOf?_of_fixed_behind hne (bracketFree_of_behavior? htable hb)
    (contains_of_behavior? hb) (fun longer hcontains hprefix => ?_) hfixed
    (stepAt?_compound hb hrest hhead)
  obtain ⟨behavior, hb'⟩ := exists_behavior?_of_contains hcontains
  rw [isFixed_eq hb']
  exact (regularName htable hb).fixed_behind rfl longer behavior hb' hprefix

/-- Between a name and its argument stands a hyphen, but not behind the name `@`. -/
def joint (name : Text) : Text :=
  if name = ['@'] then [] else ['-']

theorem Argument.ofText?_enclose {content value : Text}
    (h : decodeNonempty? content = some value) :
    Argument.ofText? (Bracket.square.enclose content) = some (.arbitrary value) := by
  have hhead : (Bracket.square.enclose content).head? = some '[' :=
    Bracket.head?_enclose .square content
  have hends : (Bracket.square.enclose content).endsWith "]" = true :=
    Bracket.endsWith_enclose .square content
  rw [Argument.ofText?, if_pos hhead, if_pos hends, Bracket.inner_enclose, h]
  rfl

/-- No name reaches over a bracket. -/
theorem not_bracketFree_of_eq {name rest content : Text}
    (h : Bracket.square.enclose content = name ++ '-' :: rest) : ¬ Text.BracketFree name := by
  intro hfree
  cases name with
  | nil => cases h
  | cons c name =>
    obtain ⟨rfl, _⟩ := List.cons.inj h
    exact hfree.1 List.mem_cons_self

/-- A name is found in front of its argument in brackets. -/
theorem stepOf?_bracketed (htable : table.isRegular = true) {name content value : Text}
    (hne : name ≠ []) (hcontains : table.contains name = true) (hfixed : isFixed table name = false)
    (hvalue : decodeNonempty? content = some value) :
    stepOf? table (name ++ joint name ++ Bracket.square.enclose content) modifier
      = some (.leaf (.named (.functional name (.arbitrary value) modifier))) := by
  obtain ⟨behavior, hb⟩ := exists_behavior?_of_contains hcontains
  have hfree := bracketFree_of_behavior? htable hb
  have hmem : '[' ∈ Bracket.square.enclose content := List.mem_cons_self
  have hbase : isFixed table (name ++ joint name ++ Bracket.square.enclose content) = false :=
    isFixed_eq_false htable (.inl (List.mem_append_right _ hmem))
  have hstep : stepAt? table modifier name (Bracket.square.enclose content)
      = some (.leaf (.named (.functional name (.arbitrary value) modifier))) := by
    have hargument := Argument.ofText?_enclose hvalue
    rw [isFixed_eq hb] at hfixed
    unfold stepAt?
    rw [if_neg (by simp [Bracket.enclose]), hb, hargument]
    cases behavior with
    | fixed => cases hfixed
    | functional => rfl
    | compound => rfl
  refine stepOf?_of_longestRoot hbase ?_ hstep
  by_cases hat : name = ['@']
  · subst hat
    refine .at rfl rfl (by simp [Bracket.enclose]) hcontains fun name rest heq hne hfree => ?_
    cases name with
    | nil => exact absurd rfl hne
    | cons c name =>
      exact absurd (Text.bracketFree_cons.1 hfree).2
        (not_bracketFree_of_eq (List.cons.inj heq).2)
  · rw [joint, if_neg hat, List.append_assoc, List.singleton_append]
    refine .hyphen rfl hne hfree hcontains fun longer rest heq hlength hfree => ?_
    obtain ⟨behind, rfl⟩ := prefix_of_append_eq heq hlength
    rw [List.append_assoc, List.append_assoc, List.append_cancel_left_eq] at heq
    exact absurd ⟨fun h => hfree.1 (List.mem_append_right _ h),
      fun h => hfree.2 (List.mem_append_right _ h)⟩ (not_bracketFree_of_eq (List.cons.inj heq).2)

/-- Of the names that begin with `@` there are few, and all of them take an argument. -/
theorem behavior?_of_at (htable : table.isRegular = true) {name : Text}
    (h : table.contains ('@' :: name) = true) : '@' :: name ∈ atNames ∧
      ∃ resolve values, table.behavior? ('@' :: name) = some (.functional resolve values) := by
  obtain ⟨behavior, hb⟩ := exists_behavior?_of_contains h
  have hname := regularName htable hb
  have hat : '@' ∈ '@' :: name := List.mem_cons_self
  cases behavior with
  | fixed => exact absurd hat (hname.at_not_mem (.inl rfl))
  | functional resolve values => exact ⟨hname.mem_atNames rfl rfl rfl, resolve, values, hb⟩
  | compound => exact absurd hat (hname.at_not_mem (.inr rfl))

theorem stepAt?_functional {root value : Text}
    {resolve : Argument → Option Text → Option Wrap} {values : List Text}
    (hb : table.behavior? root = some (.functional resolve values)) (hvalue : value ≠ []) :
    stepAt? table modifier root value = (Argument.ofText? value).map fun argument =>
      .leaf (.named (.functional root argument modifier)) := by
  unfold stepAt?
  rw [if_neg (by simpa using hvalue), hb]

/-- A key begins with a letter or a digit. -/
theorem exists_eq_cons_of_isKey {key : Text} (h : key.isKey = true) :
    ∃ c rest, key = c :: rest ∧ isAlphanumeric c = true := by
  have hdrop := eq_dropFinalNewline_or key
  rw [Text.isKey] at h
  split at h
  · cases h
  · next c rest hs =>
    rw [hs] at hdrop
    rcases hdrop with hs | hs
    · exact ⟨c, rest, hs, (Bool.and_eq_true_iff.1 h).1⟩
    · exact ⟨c, rest ++ ['\n'], hs, (Bool.and_eq_true_iff.1 h).1⟩

/-- The characters of keys and modifiers may stand in names, too. -/
theorem isRootChar_of_dropFinalNewline {s : Text}
    (h : ∀ c ∈ s.dropFinalNewline, isNameChar c = true) : ∀ c ∈ s, isRootChar c = true := by
  have hname : ∀ c ∈ s.dropFinalNewline, isRootChar c = true := fun c hc =>
    of_isNameChar (P := fun c => isRootChar c = true) (by decide) (h c hc)
  rcases eq_dropFinalNewline_or s with hs | hs
  · rwa [hs]
  · rw [hs]
    exact List.forall_mem_append.2 ⟨hname, List.forall_mem_singleton.2 (by decide)⟩

theorem isRootChar_of_isKey {key : Text} (h : key.isKey = true) :
    ∀ c ∈ key, isRootChar c = true :=
  isRootChar_of_dropFinalNewline (isNameChar_of_isKey h)

theorem isRootChar_of_isIdentifier {s : Text} (h : s.isIdentifier = true) :
    ∀ c ∈ s, isRootChar c = true :=
  isRootChar_of_dropFinalNewline (isNameChar_of_isIdentifier h)

theorem head?_ne_of_isKey {key : Text} (h : key.isKey = true) : key.head? ≠ some '[' := by
  obtain ⟨c, rest, rfl, hc⟩ := exists_eq_cons_of_isKey h
  rw [List.head?_cons, Ne, Option.some_inj]
  rintro rfl
  cases hc

theorem Argument.ofText?_of_isKey {key : Text} (h : key.isKey = true) :
    Argument.ofText? key = some (.key key) := by
  rw [Argument.ofText?, if_neg (head?_ne_of_isKey h), if_pos h]

/-- Whether a key goes on with the name `@` to a longer name and its key. -/
def isSizeKey (key : Text) : Bool :=
  ["max-".toList, "min-".toList].any fun start =>
    start.isPrefixOf key && (Text.isKey (key.drop start.length))

/-- The longer names that begin with `@` are found in front of nothing in such a key. -/
theorem isKey_eq_false_of_isSizeKey {name key rest : Text} (hkey : key.isKey = true)
    (hsize : isSizeKey key = false) (hname : '@' :: name ∈ atNames) (h : key = name ++ '-' :: rest) :
    Text.isKey rest = false := by
  subst h
  simp only [atNames, List.mem_cons, List.not_mem_nil, or_false] at hname
  have hcases : name = [] ∨ name = "max".toList ∨ name = "min".toList := by
    rcases hname with h | h | h
    · exact .inl (List.cons.inj h).2
    · exact .inr (.inl (List.cons.inj h).2)
    · exact .inr (.inr (List.cons.inj h).2)
  rcases hcases with rfl | rfl | rfl
  · obtain ⟨c, rest', heq, hc⟩ := exists_eq_cons_of_isKey hkey
    cases heq
    cases hc
  · simpa [isSizeKey] using hsize
  · simpa [isSizeKey] using hsize

/-- The names of a table that begin with `@` are fixed, or among the regular ones with an
    argument. -/
def AtNamesRegular (table : VariantTable) : Prop :=
  ∀ name, table.contains ('@' :: name) = true → isFixed table ('@' :: name) = true ∨
    '@' :: name ∈ atNames ∧
      ∃ resolve values, table.behavior? ('@' :: name) = some (.functional resolve values)

/-- The name `@` is found in front of its key, unless the key goes on with the name. -/
theorem stepOf?_at_of_names (hnames : AtNamesRegular table)
    {resolve : Argument → Option Text → Option Wrap} {values : List Text}
    (hb : table.behavior? ['@'] = some (.functional resolve values)) {key : Text}
    (hfixed : modifier = none → isFixed table ('@' :: key) = false) (hkey : key.isKey = true)
    (hsize : isSizeKey key = false) :
    stepOf? table ('@' :: key) modifier
      = some (.leaf (.named (.functional ['@'] (.key key) modifier))) := by
  have hne : key ≠ [] := by
    obtain ⟨c, rest, rfl, _⟩ := exists_eq_cons_of_isKey hkey
    exact List.cons_ne_nil c rest
  -- A longer name is fixed, or it is `@max` or `@min`, and what stands behind it is no key.
  have hlonger : ∀ split ∈ Text.hyphenRoots ('@' :: key) table.contains,
      stepAt? table modifier split.1 split.2 = none := by
    rintro ⟨name, rest⟩ hsplit
    obtain ⟨heq, hname, _, hcontains⟩ := Text.mem_hyphenRoots.1 hsplit
    cases name with
    | nil => exact absurd rfl hname
    | cons c name =>
      obtain ⟨rfl, hbehind⟩ := List.cons.inj heq
      replace hbehind : key = name ++ '-' :: rest := hbehind
      rcases hnames name hcontains with hfixed | ⟨hat, resolve, values, hb⟩
      · exact stepAt?_eq_none_of_isFixed _ hfixed
      by_cases hrest : rest = []
      · rw [hrest]
        rfl
      · have hhead : rest.head? ≠ some '[' := fun hhead => by
          have hmem : '[' ∈ key := by
            rw [hbehind]
            exact List.mem_append_right _ (.tail _ (List.mem_of_head? hhead))
          exact absurd (isRootChar_of_isKey hkey _ hmem) (by decide)
        dsimp only
        rw [stepAt?_functional hb hrest, Argument.ofText?, if_neg hhead,
          isKey_eq_false_of_isSizeKey hkey hsize hat hbehind]
        rfl
  have hstep : stepAt? table modifier ['@'] key
      = some (.leaf (.named (.functional ['@'] (.key key) modifier))) := by
    rw [stepAt?_functional hb hne, Argument.ofText?_of_isKey hkey]
    rfl
  have hat : Text.atRoot ('@' :: key) table.contains = [(['@'], key)] :=
    if_pos (by simp [hne, contains_of_behavior? hb])
  rw [stepOf?, if_neg, Text.rootSplits_eq, List.findSome?_append,
    List.findSome?_eq_none_iff.2 hlonger, hat, Option.none_or, List.findSome?_singleton]
  · exact hstep
  · rw [Bool.and_eq_true, Option.isNone_iff_eq_none, not_and, Bool.not_eq_true]
    exact hfixed

/-- In a regular table, the name `@` is found in front of its key, unless the key goes on with the
    name. -/
theorem stepOf?_at (htable : table.isRegular = true) (hcontains : table.contains ['@'] = true)
    {key : Text} (hkey : key.isKey = true) (hsize : isSizeKey key = false) :
    stepOf? table ('@' :: key) modifier
      = some (.leaf (.named (.functional ['@'] (.key key) modifier))) := by
  obtain ⟨_, resolve, values, hb⟩ := behavior?_of_at htable hcontains
  exact stepOf?_at_of_names (fun name h => .inr (behavior?_of_at htable h)) hb
    (fun _ => isFixed_eq_false htable (.inr List.mem_cons_self)) hkey hsize

/-- The longer names that begin with `@` are found in front of their keys. -/
theorem stepOf?_size (htable : table.isRegular = true) {start key : Text}
    (hcontains : table.contains ('@' :: start) = true) (hkey : key.isKey = true) :
    stepOf? table ('@' :: start ++ '-' :: key) modifier
      = some (.leaf (.named (.functional ('@' :: start) (.key key) modifier))) := by
  have hfixed : isFixed table ('@' :: start ++ '-' :: key) = false :=
    isFixed_eq_false htable (.inr List.mem_cons_self)
  have hne : key ≠ [] := by
    obtain ⟨c, rest, rfl, _⟩ := exists_eq_cons_of_isKey hkey
    exact List.cons_ne_nil c rest
  obtain ⟨_, resolve, values, hb⟩ := behavior?_of_at htable hcontains
  refine stepOf?_of_longestRoot hfixed (.hyphen rfl (List.cons_ne_nil _ _)
    (bracketFree_of_behavior? htable hb) hcontains fun longer rest heq hlength _ => ?_) ?_
  · -- No name that begins with `@` has a hyphen.
    refine eq_false_of_ne_true fun hlonger => ?_
    obtain ⟨behind, rfl⟩ := prefix_of_append_eq heq hlength
    have hhyphen : ∀ name ∈ atNames, '-' ∉ name := by decide
    exact hhyphen _ (behavior?_of_at htable hlonger).1 (by simp)
  · rw [stepAt?_functional hb hne, Argument.ofText?_of_isKey hkey]
    rfl

end Variant

end UtilityCss
