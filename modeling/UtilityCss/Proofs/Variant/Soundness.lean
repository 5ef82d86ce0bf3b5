import UtilityCss.Proofs.Bracket.Decoding
import UtilityCss.Proofs.Variant.BlockFree
import UtilityCss.Proofs.Variant.Spelling
import UtilityCss.Proofs.Variant.Wraps

/-!
# The wraps of the stock variants are sound

What is read of a segment without blanks is *clean*: its keys and names are words, and the text in
its brackets is closed. If no placeholder is shielded in the brackets, the wrap of the variant is
sound, however many compound roots stand around the leaf, because the texts that the stock table
adds are tame. Of the at-rules, only those of the table are ever negated.

* `Variant.isClean_of_ofText?`: what is read is clean;
* `VariantTable.isTame_of_stock`: the stock variants add tame texts;
* `Variant.carries_of_wrap?`: the wrap of a clean variant is sound.
-/

namespace UtilityCss

/-! ## Clean variants -/

/-- A key and a modifier are words. The text in brackets is closed, with no placeholder shielded,
    and if it is an at-rule, it is one with a condition. -/
inductive Leaf.IsClean : Leaf → Prop
  | static {name : Text} : IsClean (.named (.static name))
  | key {name value : Text} {modifier : Option Text} : value.IsWord →
      (∀ m, modifier = some m → m.IsWord) →
      IsClean (.named (.functional name (.key value) modifier))
  | bracketed {name value : Text} {modifier : Option Text} : Fillable value →
      (∀ m, modifier = some m → m.IsWord) →
      IsClean (.named (.functional name (.arbitrary value) modifier))
  | selector {selector : Text} : Fillable selector →
      (selector.head? = some '@' → conditionalAtRules.contains (splitAtRule selector).1 = true) →
      IsClean (.arbitrary selector)

/-- The leaf is clean, and so are the names of the groups. -/
structure Variant.IsClean (v : Variant) : Prop where
  leaf : v.leaf.IsClean
  outers : ∀ outer ∈ v.outers, ∀ g, outer.groupName? = some g → g.IsWord

/-- The text between the brackets of a leaf. -/
def Leaf.enclosed? : Leaf → Option Text
  | arbitrary selector => some selector
  | named (.functional _ (.arbitrary value) _) => some value
  | _ => none

/-- The quoted parts of the text between the brackets of a leaf. -/
def Leaf.quotedParts (l : Leaf) : List Text :=
  l.enclosed?.elim [] Text.quotedParts

/-! ## Reading -/

theorem isWord_of_dropFinalNewline {s : Text} (h : ∀ c ∈ s.dropFinalNewline, isNameChar c = true) :
    s.IsWord := by
  have hname : Text.IsWord s.dropFinalNewline := fun c hc => isWord_of_isNameChar (h c hc)
  rcases eq_dropFinalNewline_or s with hs | hs
  · rwa [hs]
  · rw [hs]
    exact List.forall_mem_append.2 ⟨hname, List.forall_mem_singleton.2 (by decide)⟩

theorem isWord_of_isIdentifier {s : Text} (h : s.isIdentifier = true) : s.IsWord :=
  isWord_of_dropFinalNewline (isNameChar_of_isIdentifier h)

theorem closed_of_decodeNonempty? {s value : Text} (hs : ∀ c ∈ s, isBlank c = false)
    (h : decodeNonempty? s = some value) : Closed value :=
  Text.closed_of_decode hs (decodeNonempty?_eq_some.1 h).1

/-- A bracketed at-rule is one with a condition. -/
theorem Leaf.conditional_of_ofSelector? {content selector : Text}
    (h : ofSelector? content = some (.arbitrary selector)) (hat : selector.head? = some '@') :
    conditionalAtRules.contains (splitAtRule selector).1 = true := by
  obtain ⟨_, hvalue, ⟨⟩⟩ := decodeNonempty?_of_ofSelector? h
  rw [ofSelector?, hvalue] at h
  obtain ⟨_, h⟩ := Option.ite_none_left_eq_some.1 h
  rw [if_pos hat] at h
  obtain ⟨hrule, _⟩ := Option.ite_none_right_eq_some.1 h
  exact (Bool.and_eq_true_iff.1 hrule).1

/-- The leaf of a segment without blanks is clean. -/
theorem LeafSpelling.isClean {table : VariantTable} {l : Leaf} {s : Text}
    (h : LeafSpelling table l s) (hs : ∀ c ∈ s, isBlank c = false)
    (hl : ∀ text, l.enclosed? = some text → text.shieldsPlaceholder = false) : l.IsClean := by
  cases h with
  | static => exact .static
  | @functional name joint text argument modifier _ _ _ _ _ hargument hmodifier =>
    have hmodifier : ∀ m, modifier = some m → m.IsWord := by
      rintro m rfl
      exact isWord_of_isIdentifier hmodifier
    cases hargument with
    | key hkey => exact .key (isWord_of_dropFinalNewline (isNameChar_of_isKey hkey)) hmodifier
    | bracketed hvalue =>
      have hclosed := closed_of_decodeNonempty?
        (fun c hc => hs c (List.mem_append_right _ (subset_enclose .square _ hc))) hvalue
      exact .bracketed (hclosed.fillable (hl _ rfl)) hmodifier
  | selector hselector =>
    obtain ⟨_, hvalue, ⟨⟩⟩ := Leaf.decodeNonempty?_of_ofSelector? hselector
    have hclosed := closed_of_decodeNonempty? (fun c hc => hs c (subset_enclose .square _ hc)) hvalue
    exact .selector (hclosed.fillable (hl _ rfl)) (Leaf.conditional_of_ofSelector? hselector)

namespace Variant

variable {table : VariantTable} {v : Variant} {s : Text}

theorem isClean_of_chainSpelling (h : ChainSpelling table v s) (hs : ∀ c ∈ s, isBlank c = false)
    (hv : ∀ text, v.leaf.enclosed? = some text → text.shieldsPlaceholder = false) :
    v.IsClean := by
  induction h with
  | leaf hleaf => exact ⟨hleaf.isClean hs hv, List.forall_mem_nil _⟩
  | root houter _ _ _ _ _ ih =>
    obtain ⟨hleaf, houters⟩ := ih (fun c hc => hs c (List.mem_append_right _ hc)) hv
    refine ⟨hleaf, List.forall_mem_cons.2 ⟨fun g hg => ?_, houters⟩⟩
    cases houter with
    | static => cases hg
    | group _ hgroup =>
      cases hg
      exact isWord_of_isIdentifier hgroup

/-- What is read of a segment without blanks is clean, unless a placeholder is shielded in its
    brackets. -/
theorem isClean_of_ofText? {settings : Settings} (h : ofText? table settings s = some v)
    (hs : ∀ c ∈ s, isBlank c = false)
    (hv : ∀ text, v.leaf.enclosed? = some text → text.shieldsPlaceholder = false) :
    v.IsClean := by
  cases spelling_of_ofText? h with
  | mk hchain =>
    exact isClean_of_chainSpelling hchain (fun c hc => hs c (List.mem_append_left _ hc)) hv

end Variant

/-! ## Resolving -/

/-- The behaviors that add tame texts only, with a placeholder in every template, and with a
    condition that may be negated in every at-rule. -/
inductive VariantBehavior.IsTame : VariantBehavior → Prop
  | selector {template : Text} {compounds : Bool} : template.isTame = true →
      hasPlaceholder template = true → IsTame (.fixed (.selector template) compounds)
  | atRule {name params : Text} {compounds : Bool} : name.isTame = true → params.isTame = true →
      params.hasPlainHead = true → IsTame (.fixed (.atRule name params) compounds)
  | query {query : Query} {values : List Text} : query.isTame = true →
      IsTame (.functional query.wrap? values)
  | relation {relation : Relation} : relation.isTame = true →
      IsTame (.compound ⟨relation.compound?, some relation.arbitrary?⟩)

namespace VariantTable

/-- The variants of a table add tame texts only. -/
def IsTame (table : VariantTable) : Prop :=
  ∀ d ∈ table.definitions, d.behavior.IsTame

theorem IsTame.behavior {table : VariantTable} (h : table.IsTame) {name : Text}
    {behavior : VariantBehavior} (hb : table.behavior? name = some behavior) : behavior.IsTame := by
  obtain ⟨d, hd, rfl⟩ := Option.map_eq_some_iff.1 hb
  exact h d (List.mem_of_find?_eq_some hd)

end VariantTable

namespace Leaf

variable {table : VariantTable} {l : Leaf} {w : Wrap} {compounds : Bool}

theorem exists_eq_splitAtRule (selector : Text) : ∃ rest,
    selector = (splitAtRule selector).1 ++ rest ∧ (splitAtRule selector).2 = Text.strip rest :=
  ⟨_, (List.prefix_iff_eq_append.1 (List.takeWhile_prefix _)).symm, rfl⟩

theorem carries_of_wrapOfSelector {selector : Text} (hs : Fillable selector)
    (hname : selector.head? = some '@' →
      conditionalAtRules.contains (splitAtRule selector).1 = true) :
    (wrapOfSelector selector).1.Carries selector.quotedParts ∧
      ((wrapOfSelector selector).2 = true → (wrapOfSelector selector).1.isNegatable = true) := by
  rw [wrapOfSelector]
  split
  · next hat =>
    have hplain : ∀ rule ∈ conditionalAtRules, rule.all Token.isPlain = true := by decide
    obtain ⟨rest, hsplit, hparams⟩ := exists_eq_splitAtRule selector
    have hrule : ∀ c ∈ (splitAtRule selector).1, Token.isPlain c = true :=
      List.all_eq_true.1 (hplain _ (List.contains_iff_mem.1 (hname hat)))
    generalize splitAtRule selector = parts at hrule hsplit hparams
    subst hsplit
    have hrest := Closed.of_append_left hrule hs.closed
    refine ⟨.atRule (.of_plain hrule) (hparams ▸ hrest.strip) ?_, fun h => by cases h⟩
    rw [hparams, quotedParts_strip hrest, quotedParts_plain_append hrule]
    exact List.Subset.refl _
  · split
    · next hplaceholder =>
      exact ⟨.selector hs (List.contains_iff_mem.1 hplaceholder) (List.Subset.refl _), fun _ => rfl⟩
    · have hname : Tame "&:is".toList := .of_isTame (by decide)
      exact ⟨.framed .round hname (by decide) tame_nil hs (List.forall_mem_nil _) .nil
        (List.Subset.refl _), fun _ => rfl⟩

theorem carries_of_wrapOfArgument? (htable : table.IsTame) {name : Text}
    {argument : Argument} {modifier : Option Text}
    (hl : (named (.functional name argument modifier)).IsClean)
    (h : wrapOfArgument? table name argument modifier = some w) :
    w.Carries (named (.functional name argument modifier)).quotedParts := by
  unfold wrapOfArgument? at h
  split at h
  · next resolve values hb =>
    cases htable.behavior hb with
    | query hquery =>
      cases hl with
      | key hvalue hmodifier => exact Query.carries_of_key? hquery hvalue hmodifier h
      | bracketed hvalue hmodifier => exact Query.carries_of_arbitrary? hquery hvalue hmodifier h
  · next root selector hb =>
    cases htable.behavior hb with
    | relation hrelation =>
      cases hl with
      | bracketed hvalue hmodifier =>
        exact (Relation.carries_of_arbitrary? hrelation hmodifier hvalue h).1
  · cases h

theorem carries_of_wrap? (htable : table.IsTame) (hl : l.IsClean)
    (h : l.wrap? table = some (w, compounds)) :
    w.Carries l.quotedParts ∧ (compounds = true → w.isNegatable = true) := by
  unfold wrap? at h
  split at h
  · next selector =>
    have h := Option.some.inj h
    cases hl with
    | selector hs hname =>
      have hcarries := carries_of_wrapOfSelector hs hname
      rw [h] at hcarries
      exact hcarries
  · split at h
    · next hb =>
      cases h
      cases htable.behavior hb with
      | selector htemplate hplaceholder =>
        exact ⟨.selector (.of_isTame htemplate) (List.contains_iff_mem.1 hplaceholder)
          (List.nil_subset _), fun _ => rfl⟩
      | atRule hname hparams hhead =>
        exact ⟨.atRule (Tame.of_isTame hname).closed (Tame.of_isTame hparams).closed
          (List.nil_subset _), fun _ => hhead⟩
    · cases h
  · next name argument modifier =>
    obtain ⟨w', hw', h⟩ := Option.map_eq_some_iff.1 h
    cases h
    refine ⟨carries_of_wrapOfArgument? htable hl hw', fun hselector => ?_⟩
    cases w with
    | selector => rfl
    | atRule => cases hselector

end Leaf

namespace Variant

variable {table : VariantTable} {w : Wrap}

theorem carries_of_compound? (htable : table.IsTame) {outer : Atom}
    (houter : ∀ g, outer.groupName? = some g → g.IsWord) {quoted : List Text}
    (hw : w.Carries quoted) (hn : w.isNegatable = true) {w' : Wrap}
    (h : compound? table outer w = some w') : w'.Carries quoted ∧ w'.isNegatable = true := by
  rw [compound?] at h
  split at h
  · next root hb =>
    cases htable.behavior hb with
    | relation hrelation => exact Relation.carries_of_compound? hrelation houter hw hn h
  · cases h

/-- The compound roots around a wrap keep it sound. -/
theorem carries_of_foldr (htable : table.IsTame) {outers : List Atom}
    (houters : ∀ outer ∈ outers, ∀ g, outer.groupName? = some g → g.IsWord) {quoted : List Text}
    (hw : w.Carries quoted) (hn : w.isNegatable = true) {w' : Wrap}
    (h : outers.foldr (fun outer inner => inner.bind (compound? table outer)) (some w) = some w') :
    w'.Carries quoted ∧ w'.isNegatable = true := by
  induction outers generalizing w' with
  | nil =>
    cases h
    exact ⟨hw, hn⟩
  | cons outer outers ih =>
    obtain ⟨houter, houters⟩ := List.forall_mem_cons.1 houters
    obtain ⟨inner, hinner, h⟩ := Option.bind_eq_some_iff.1 h
    obtain ⟨hinner, hn⟩ := ih houters hinner
    exact carries_of_compound? htable houter hinner hn h

/-- The wrap of a clean variant is sound, and the quoted parts of its bracketed text are in it. -/
theorem carries_of_wrap? (htable : table.IsTame) {v : Variant} (hv : v.IsClean)
    (h : v.wrap? table = some w) : w.Carries v.leaf.quotedParts := by
  rw [wrap?] at h
  split at h
  · cases h
  · next inner compounds hleaf =>
    obtain ⟨hcompounds, h⟩ := Option.ite_none_right_eq_some.1 h
    obtain ⟨hinner, hn⟩ := Leaf.carries_of_wrap? htable hv.leaf hleaf
    cases hc : compounds with
    | true => exact (carries_of_foldr htable hv.outers hinner (hn hc) h).1
    | false =>
      rw [hc, Bool.false_or, List.isEmpty_iff] at hcompounds
      rw [hcompounds] at h
      cases h
      exact hinner

end Variant

/-! ## The stock table -/

namespace VariantTable

/-- The stock variants of a tame theme add tame texts. -/
theorem isTame_of_stock {theme : Theme} (htheme : theme.isTame = true) {table : VariantTable}
    (h : stock theme = .ok table) : table.IsTame := by
  have htemplates : ∀ template ∈ stockTemplates,
      template.isTame = true ∧ hasPlaceholder template = true := by decide +kernel
  have hconditions : ∀ condition ∈ stockConditions,
      condition.isTame = true ∧ condition.hasPlainHead = true := by decide +kernel
  have hrelations : ∀ p ∈ stockRelations, p.2.isTame = true := by decide
  have hqueries : ∀ p ∈ unlistedQueries, p.2.isTame = true := by decide
  have hmedia : Text.isTame "@media" = true := by decide
  have hcontainer : Text.isTame "@container" = true := by decide
  have hoperators : ∀ operator ∈ sizeOperators, operator.isTame = true := by decide
  have hquery {nameSpace rule operator : Text} {takesName : Bool} (hrule : rule.isTame = true)
      (hoperator : operator ∈ sizeOperators) :
      (Query.size ⟨theme, nameSpace, rule, operator, takesName⟩).isTame = true := by
    simp [Query.isTame, htheme, hrule, hoperators operator hoperator]
  rw [build_eq_ok h]
  intro d hd
  cases VariantDefinition.isStock_of_mem hd with
  | selector htemplate =>
    obtain ⟨htame, hplaceholder⟩ := htemplates _ htemplate
    exact .selector htame hplaceholder
  | atRule hcondition =>
    obtain ⟨htame, hhead⟩ := hconditions _ hcondition
    exact .atRule hmedia htame hhead
  | @breakpoint key =>
    have hwidth : Tame "width >= ".toList := .of_isTame (by decide)
    have hsize : Tame ((theme.valueFor? key ["--breakpoint"]).getD []) := by
      cases hv : theme.valueFor? key ["--breakpoint"] with
      | none => exact tame_nil
      | some value =>
        obtain ⟨name, _, hget⟩ := Option.bind_eq_some_iff.1 hv
        exact Theme.tame_of_get? htheme hget
    exact .atRule hmedia
      (tame_call tame_nil hwidth (List.forall_mem_singleton.2 hsize) tame_nil).isTame rfl
  | relation hrelation => exact .relation (hrelations _ hrelation)
  | states => exact .query rfl
  | unlisted hunlisted => exact .query (hqueries _ hunlisted)
  | viewport _ hoperator => exact .query (hquery hmedia hoperator)
  | container _ hoperator => exact .query (hquery hcontainer hoperator)

end VariantTable

end UtilityCss
