import UtilityCss.Proofs.Candidate.Texts
import UtilityCss.Proofs.Compilation.Faultless
import UtilityCss.Proofs.Stylesheet.Pieces

/-!
# The values of a tame design

A design is *tame* if all texts that it puts into declarations are: the properties and values of
its utilities, the values of its theme, its templates, and its color space. What such a design
declares for a clean candidate then *fits* into a block (`Assignment.Fits`): the property is tame,
the value is closed, and unless it is the very text in the brackets of the candidate, it is kept.
Every function on the way from the candidate to its declarations takes part in this with one
lemma.

* `Modifier.closed_of_alpha?`, `Assignment.Fits.faded`: an alpha is closed, and a faded color is
  kept, whatever the alpha is;
* `UtilityTable.allFit_assign`: all assignments fit, and there is at least one.
-/

namespace UtilityCss

/-! ## Calls -/

theorem Tame.keeps {s : Text} (h : Tame s) : Nesting.outside.Keeps s := by
  refine .of_closed h.closed rfl (.inr fun hmem => ?_)
  have := h.mild ';' hmem
  cases this

/-- The parts of a call of a function, with its arguments between brackets. -/
theorem join_call (name first last : Text) (parts : List Text) :
    Text.join [] ((name ++ '(' :: first) :: parts ++ [last ++ [')']])
      = name ++ Bracket.round.enclose (first :: parts ++ [last]).flatten := by
  simp [Text.join_eq_flatten, Bracket.enclose, Bracket.opener, Bracket.closer]

theorem tame_nil : Tame [] := .of_isTame rfl

section Call

variable {name first last : Text} {parts : List Text}

/-- What holds of texts one after the other holds of the arguments of a call. -/
theorem arguments_of {P : Text → Prop} (nil : P []) (append : ∀ {s t}, P s → P t → P (s ++ t))
    (hfirst : P first) (hparts : ∀ s ∈ parts, P s) (hlast : P last) :
    P (first :: parts ++ [last]).flatten := by
  have h : ∀ s ∈ first :: parts ++ [last], P s := List.forall_mem_cons.2
    ⟨hfirst, List.forall_mem_append.2 ⟨hparts, List.forall_mem_singleton.2 hlast⟩⟩
  generalize first :: parts ++ [last] = parts at h
  induction parts with
  | nil => exact nil
  | cons s parts ih =>
    obtain ⟨hs, h⟩ := List.forall_mem_cons.1 h
    exact append hs (ih h)

/-- A call is kept, whatever its arguments are. -/
theorem keeps_call (hname : Tame name) (hfirst : Closed first) (hparts : ∀ s ∈ parts, Closed s)
    (hlast : Closed last) :
    Nesting.outside.Keeps (Text.join [] ((name ++ '(' :: first) :: parts ++ [last ++ [')']])) := by
  rw [join_call]
  exact hname.keeps.append (.enclose .round (arguments_of .nil .append hfirst hparts hlast) rfl)

theorem closed_call (hname : Tame name) (hfirst : Closed first) (hparts : ∀ s ∈ parts, Closed s)
    (hlast : Closed last) :
    Closed (Text.join [] ((name ++ '(' :: first) :: parts ++ [last ++ [')']])) := by
  rw [join_call]
  exact hname.closed.append (.enclose .round (arguments_of .nil .append hfirst hparts hlast))

theorem tame_call (hname : Tame name) (hfirst : Tame first) (hparts : ∀ s ∈ parts, Tame s)
    (hlast : Tame last) :
    Tame (Text.join [] ((name ++ '(' :: first) :: parts ++ [last ++ [')']])) := by
  rw [join_call]
  exact hname.append (.enclose .round (arguments_of tame_nil .append hfirst hparts hlast))

end Call

theorem tame_calc : Tame "calc".toList := .of_isTame (by decide)

/-! ## Templates -/

namespace TemplatePart

/-- What stands for a part of a template that is filled. -/
def text (value : Text) : TemplatePart → Text
  | literal c => [c]
  | hole _ layout => layout.lay value
  | broken _ => []

/-- Whether a part leaves a value as it is. -/
def isPlain : TemplatePart → Bool
  | literal _ => true
  | hole _ layout => layout = .plain
  | broken _ => true

theorem text_hole_of_isPlain {field : TemplateField} {layout : Layout}
    (h : (hole field layout).isPlain = true) (value : Text) :
    (hole field layout).text value = value := by
  rw [text, of_decide_eq_true h, Layout.lay_plain]

end TemplatePart

namespace Template

/-- Whether a template leaves a value as it is, and is tame with nothing in its fields. -/
def isTame (t : Template) : Bool :=
  t.parts.all (·.isPlain) && Text.isTame (t.parts.flatMap (·.text []))

variable {value text : Text} {parts : List TemplatePart}

theorem eq_flatMap_of_fillParts {asked : Asked} (h : fillParts value asked parts = .ok text) :
    text = parts.flatMap (·.text value) := by
  fun_induction fillParts value asked parts generalizing text with
  | case1 =>
    cases h
    rfl
  | case2 asked c rest ih =>
    obtain ⟨text', htext, rfl⟩ := map_eq_ok.1 h
    rw [ih htext]
    rfl
  | case3 => cases h
  | case4 asked field layout rest ih =>
    obtain ⟨asked', _, h⟩ := bind_eq_ok.1 h
    obtain ⟨text', htext, rfl⟩ := map_eq_ok.1 h
    rw [ih asked' htext]
    rfl

/-- A closed value in its fields does not change what a template closes. -/
theorem closesAll_flatMap (hvalue : Closed value) {limit : Int}
    (hplain : ∀ part ∈ parts, part.isPlain = true)
    (hmild : ∀ c ∈ parts.flatMap (·.text []), isMild c = true) {stack : List Bracket}
    (h : Nesting.strictRun? limit ⟨stack, none⟩ (parts.flatMap (·.text [])) = some .outside) :
    ClosesAll stack (parts.flatMap (·.text value)) := by
  -- The stack goes with the induction, since a single part may open or close a group.
  induction parts generalizing stack with
  | nil => exact .of_strictRun? hmild h
  | cons part parts ih =>
    obtain ⟨hpart, hrest⟩ := List.forall_mem_cons.1 hplain
    rw [List.flatMap_cons] at hmild h ⊢
    cases part with
    | literal c =>
      obtain ⟨hc, hmild⟩ := List.forall_mem_cons.1 hmild
      rw [TemplatePart.text, List.singleton_append,
        Nesting.strictRun?_cons (ne_backslash_of_isMild hc), Option.bind_eq_some_iff] at h
      obtain ⟨⟨stack', quote⟩, hstep, h⟩ := h
      obtain ⟨rfl, hcons⟩ := ClosesAll.cons_of_strictStep? hc hstep
      exact hcons (ih hrest hmild h)
    | hole field layout =>
      rw [TemplatePart.text_hole_of_isPlain hpart, List.nil_append] at hmild h
      rw [TemplatePart.text_hole_of_isPlain hpart]
      exact .append hvalue (ih hrest hmild h)
    | broken fault => exact ih hrest hmild h

/-- A tame template stays tame with a tame value in its fields. -/
theorem tame_fill {t : Template} (ht : t.isTame = true) (hvalue : Tame value)
    (h : t.fill value = .ok text) : Tame text := by
  rw [isTame, Text.isTame, Bool.and_eq_true, Bool.and_eq_true, List.all_eq_true,
    List.all_eq_true] at ht
  obtain ⟨hplain, hmild, hbalanced⟩ := ht
  have hcloses : ClosesAll [] (t.parts.flatMap (·.text value)) :=
    closesAll_flatMap hvalue.closed hplain hmild (Text.isBalanced_iff.1 hbalanced)
  rw [eq_flatMap_of_fillParts h]
  refine ⟨hcloses, fun c hc => ?_⟩
  obtain ⟨part, hpart, hc⟩ := List.mem_flatMap.1 hc
  cases part with
  | literal => exact hmild c (List.mem_flatMap.2 ⟨_, hpart, hc⟩)
  | hole field layout =>
    rw [TemplatePart.text_hole_of_isPlain (hplain _ hpart)] at hc
    exact hvalue.mild c hc
  | broken => cases hc

end Template

/-! ## Tame designs -/

/-- Whether the values of a theme are tame. -/
def Theme.isTame (t : Theme) : Bool :=
  t.values.values.all Text.isTame

/-- Whether a rule declares something, and all texts that it puts into it are tame. -/
def UtilityRule.isTame (rule : UtilityRule) : Bool :=
  !rule.properties.isEmpty && rule.properties.all Text.isTame
    && rule.keywords.values.all Text.isTame && rule.companions.all (·.1.isTame)
    && rule.template.isTame

/-- Whether a utility declares something, and all texts that it puts into it are tame. -/
def Utility.isTame : Utility → Bool
  | static _ declarations =>
    !declarations.isEmpty && declarations.all fun (property, value) =>
      property.isTame && value.isTame
  | dynamic _ rules default _ => rules.all (·.isTame) && default.all Text.isTame

/-- Whether all texts are tame that a design puts into declarations, and every utility declares
    something. -/
def Design.isTame (d : Design) : Bool :=
  d.theme.isTame && d.utilities.entries.all (·.utility.isTame) && d.settings.mixingSpace.isTame

theorem Theme.isTame_of_get? {theme : Theme} (htheme : theme.isTame = true) {name value : Text}
    (h : theme.get? name = some value) : value.isTame = true :=
  List.all_eq_true.1 htheme value
    (List.mem_map_of_mem (f := Prod.snd) (OrderedMap.mem_entries_of_get? h))

theorem Theme.tame_of_get? {theme : Theme} (htheme : theme.isTame = true) {name value : Text}
    (h : theme.get? name = some value) : Tame value :=
  .of_isTame (isTame_of_get? htheme h)

/-! ## Named values -/

section Named

variable {theme : Theme} {key value : Text}

theorem tame_of_fractionValue? {fraction : Text} (hf : Tame fraction)
    (h : fractionValue? fraction = some value) : Tame value := by
  obtain ⟨_, h⟩ := Option.ite_none_left_eq_some.1 h
  cases h
  have hlast : Tame " * 100%".toList := .of_isTame (by decide)
  exact tame_call tame_calc tame_nil (List.forall_mem_singleton.2 hf) hlast

theorem tame_of_spacingValue? (htheme : theme.isTame = true) (hkey : Tame key)
    (h : spacingValue? theme key = some value) : Tame value := by
  rw [spacingValue?] at h
  split at h
  · cases h
  · next unit hunit =>
    obtain ⟨_, h⟩ := Option.ite_none_right_eq_some.1 h
    cases h
    have htimes : Tame " * ".toList := .of_isTame (by decide)
    have hparts : ∀ s ∈ [unit, " * ".toList, key], Tame s := List.forall_mem_cons.2
      ⟨Theme.tame_of_get? htheme hunit, List.forall_mem_cons.2
        ⟨htimes, List.forall_mem_singleton.2 hkey⟩⟩
    exact tame_call tame_calc tame_nil hparts tame_nil

theorem tame_of_percentageValue? (hkey : Tame key) (h : percentageValue? key = .ok (some value)) :
    Tame value := by
  have hsign : Tame ['%'] := .of_isTame (by decide)
  unfold percentageValue? at h
  extract_lets at h
  split at h
  · cases h
  · split at h
    · cases h
    · split at h
      · cases h
        exact hkey.append hsign
      · cases h

theorem BareForm.tame_of_value? (htheme : theme.isTame = true) (hkey : Tame key) {form : BareForm}
    (h : form.value? theme key = .ok (some value)) : Tame value := by
  cases form with
  | integer | number =>
    obtain ⟨_, h⟩ := Option.ite_none_right_eq_some.1 (Except.ok.inj h)
    cases h
    exact hkey
  | percentage => exact tame_of_percentageValue? hkey h
  | spacing => exact tame_of_spacingValue? htheme hkey (Except.ok.inj h)
  | fraction => cases h

/-- The texts of an entry are tame: its value, and its companions with their properties. -/
structure RuleEntry.IsTame (e : RuleEntry) : Prop where
  value : Tame e.value
  companions : ∀ a ∈ e.companions, Tame a.property ∧ Tame a.value

theorem RuleEntry.IsTame.of_value (h : Tame value) : RuleEntry.IsTame ⟨value, []⟩ :=
  ⟨h, by simp⟩

namespace UtilityRule

variable {rule : UtilityRule} {entry : RuleEntry}

theorem isTame_iff : rule.isTame = true ↔ rule.properties ≠ [] ∧
    (∀ p ∈ rule.properties, p.isTame = true) ∧ (∀ v ∈ rule.keywords.values, v.isTame = true) ∧
    (∀ p ∈ rule.companions, p.1.isTame = true) ∧ rule.template.isTame = true := by
  simp [isTame, and_assoc]

theorem isTame_of_lookUp? (htheme : theme.isTame = true) (hrule : rule.isTame = true)
    (h : rule.lookUp? theme key = some entry) : entry.IsTame := by
  obtain ⟨_, _, hkeywords, hcompanions, _⟩ := isTame_iff.1 hrule
  rw [lookUp?] at h
  split at h
  · next value hvalue =>
    cases h
    exact .of_value (.of_isTame (hkeywords value
      (List.mem_map_of_mem (f := Prod.snd) (OrderedMap.mem_entries_of_get? hvalue))))
  · split at h
    · cases h
    · next name _ =>
      obtain ⟨_, h⟩ := Option.ite_none_left_eq_some.1 h
      obtain ⟨value, hvalue, rfl⟩ := Option.map_eq_some_iff.1 h
      refine ⟨Theme.tame_of_get? htheme hvalue, fun a ha => ?_⟩
      obtain ⟨p, hp, ha⟩ := List.mem_filterMap.1 ha
      obtain ⟨value', hvalue', rfl⟩ := Option.map_eq_some_iff.1 ha
      exact ⟨.of_isTame (hcompanions p hp), Theme.tame_of_get? htheme hvalue'⟩

theorem isTame_of_findFraction? (htheme : theme.isTame = true) (hrule : rule.isTame = true)
    {fraction : Text} (hf : Tame fraction) (h : rule.findFraction? theme fraction = some entry) :
    entry.IsTame := by
  rw [findFraction?] at h
  split at h
  · next hentry =>
    cases h
    exact isTame_of_lookUp? htheme hrule hentry
  · obtain ⟨_, h⟩ := Option.ite_none_right_eq_some.1 h
    obtain ⟨value, hvalue, rfl⟩ := Option.map_eq_some_iff.1 h
    exact .of_value (tame_of_fractionValue? hf hvalue)

theorem isTame_of_findKey? (htheme : theme.isTame = true) (hrule : rule.isTame = true)
    (hkey : Tame key) (h : rule.findKey? theme key = .ok (some entry)) : entry.IsTame := by
  rw [findKey?] at h
  split at h
  · next hentry =>
    cases h
    exact isTame_of_lookUp? htheme hrule hentry
  · obtain ⟨found, hfound, h⟩ := bind_eq_ok.1 h
    cases found with
    | none => cases h
    | some value =>
      obtain ⟨_, form, _, _, _, hvalue⟩ := findSomeM?_eq_ok_some.1 hfound
      dsimp only at h
      split at h
      · next text htext =>
        cases h
        exact .of_value (Template.tame_fill (isTame_iff.1 hrule).2.2.2.2
          (BareForm.tame_of_value? htheme hkey hvalue) htext)
      · cases h

theorem isTame_of_findNamed? (htheme : theme.isTame = true) (hrule : rule.isTame = true)
    (hkey : Tame key) {fraction : Option Text} (hf : ∀ f, fraction = some f → Tame f)
    {result : NamedResult} (h : rule.findNamed? theme key fraction = .ok (some result)) :
    result.entry.IsTame := by
  rw [findNamed?] at h
  split at h
  · next entry hentry =>
    cases h
    obtain ⟨f, hfraction, hentry⟩ := Option.bind_eq_some_iff.1 hentry
    exact isTame_of_findFraction? htheme hrule (hf f hfraction) hentry
  · obtain ⟨found, hfound, h⟩ := bind_eq_ok.1 h
    cases found with
    | none => cases h
    | some entry =>
      cases h
      exact isTame_of_findKey? htheme hrule hkey hfound

end UtilityRule

end Named

/-! ## Alpha -/

theorem tame_percentText (x : Binary64) : Tame (percentText x) := by
  have hnat {n : Nat} {c : Char} (hc : c ∈ Text.ofNat n) : isNameChar c = true := by
    have hdigit := Nat.isDigit_of_mem_toDigits (by decide) (by decide) hc
    simp [isNameChar, isAlphanumericOr, isAlphanumeric, Char.isAlphanum, hdigit]
  have hfixed {places num den : Nat} : ∀ c ∈ fixedText places num den, isNameChar c = true := by
    intro c hc
    simp only [fixedText, List.mem_append, List.mem_cons] at hc
    rcases hc with (hc | hc | hc) | hc
    · exact hnat hc
    · rw [hc]
      rfl
    · rw [List.eq_of_mem_replicate hc]
      rfl
    · exact hnat hc
  have hdrop {p : Char → Bool} {s : Text} {c : Char} (hc : c ∈ Text.dropEndWhile p s) : c ∈ s :=
    List.mem_reverse.1 ((List.dropWhile_suffix p).mem (List.mem_reverse.1 hc))
  refine .of_isNameChar fun c hc => ?_
  rcases List.mem_append.1 hc with hc | hc
  · exact hfixed c (hdrop (hdrop hc))
  · rw [List.mem_singleton.1 hc]
    rfl

theorem Modifier.closed_of_alpha? {theme : Theme} (htheme : theme.isTame = true) {c : Candidate}
    (hc : c.Clean) {m : Modifier} (hm : c.modifier = some m) {alpha : Text}
    (h : m.alpha? theme = some alpha) : Closed alpha := by
  cases m with
  | named name =>
    rw [alpha?] at h
    split at h
    · next hget =>
      cases h
      exact (Theme.tame_of_get? htheme hget).closed
    · obtain ⟨_, h⟩ := Option.ite_none_right_eq_some.1 h
      cases h
      exact (hc.name name hm).closed.append (Tame.of_isTame (by decide)).closed
  | arbitrary value =>
    rw [alpha?] at h
    split at h
    · obtain ⟨x, _, rfl⟩ := Option.map_eq_some_iff.1 h
      exact (tame_percentText x).closed
    · cases h
      exact hc.modifier _ hm

/-! ## Assignments -/

/-- An assignment fits into a block: its property is tame, and its value is closed and kept. The
    text in the brackets of the candidate need not be kept. -/
structure Assignment.Fits (c : Candidate) (a : Assignment) : Prop where
  property : Tame a.property
  closed : Closed a.value
  kept : Nesting.outside.Keeps a.value ∨ ∃ type, c.value = some (.arbitrary a.value type)

variable {c : Candidate}

theorem Assignment.Fits.of_tame {a : Assignment} (hproperty : Tame a.property)
    (hvalue : Tame a.value) : a.Fits c :=
  ⟨hproperty, hvalue.closed, .inl hvalue.keeps⟩

/-- A color that is not left as it is becomes a call. -/
theorem faded_of_not_isOpaque {alpha : Text} (h : ¬ isOpaque alpha.strip = true)
    (colorSpace value : Text) :
    faded colorSpace value alpha = Text.join []
      (("color-mix".toList ++ '(' :: "in ".toList) ::
        [colorSpace, ", ".toList, value, " ".toList, alpha] ++
        [", transparent".toList ++ [')']]) := by
  rw [faded, if_neg h]
  rfl

/-- A faded color is closed and kept, unless it is left as it is. -/
theorem Assignment.Fits.faded {a : Assignment} (h : a.Fits c) {colorSpace alpha : Text}
    (hspace : Tame colorSpace) (halpha : Closed alpha) :
    Assignment.Fits c { a with value := faded colorSpace a.value alpha } := by
  by_cases hopaque : isOpaque alpha.strip = true
  · rwa [UtilityCss.faded, if_pos hopaque]
  · have hname : Tame "color-mix".toList := .of_isTame (by decide)
    have hfirst : Tame "in ".toList := .of_isTame (by decide)
    have hcomma : Tame ", ".toList := .of_isTame (by decide)
    have hblank : Tame " ".toList := .of_isTame (by decide)
    have hlast : Tame ", transparent".toList := .of_isTame (by decide)
    have hparts : ∀ s ∈ [colorSpace, ", ".toList, a.value, " ".toList, alpha], Closed s := by
      simp only [List.forall_mem_cons]
      exact ⟨hspace.closed, hcomma.closed, h.closed, hblank.closed, halpha, List.forall_mem_nil _⟩
    rw [faded_of_not_isOpaque hopaque]
    exact ⟨h.property, closed_call hname hfirst.closed hparts hlast.closed,
      .inl (keeps_call hname hfirst.closed hparts hlast.closed)⟩

theorem Assignment.Fits.negated {a : Assignment} (h : a.Fits c) :
    Assignment.Fits c { a with value := negated a.value } := by
  have hlast : Tame " * -1".toList := .of_isTame (by decide)
  have hparts : ∀ s ∈ [a.value], Closed s := List.forall_mem_singleton.2 h.closed
  exact ⟨h.property, closed_call tame_calc tame_nil.closed hparts hlast.closed,
    .inl (keeps_call tame_calc tame_nil.closed hparts hlast.closed)⟩

/-- All assignments fit, and there is at least one. -/
structure AllFit (c : Candidate) (assignments : List Assignment) : Prop where
  ne_nil : assignments ≠ []
  fits : ∀ a ∈ assignments, a.Fits c

variable {theme : Theme} {assignments assignments' : List Assignment}

theorem AllFit.applyModifier {settings : Settings} (htheme : theme.isTame = true)
    (hspace : Tame settings.mixingSpace) (hc : c.Clean) {modifier : Option Modifier}
    (hm : ∀ m, modifier = some m → c.modifier = some m) (hall : AllFit c assignments)
    (h : applyModifier theme settings modifier assignments = .ok assignments') :
    AllFit c assignments' := by
  cases modifier with
  | none =>
    cases h
    exact hall
  | some m =>
    obtain ⟨_, alpha, halpha, rfl⟩ := applyModifier_eq_ok.1 h
    refine ⟨fun hnil => hall.ne_nil (List.map_eq_nil_iff.1 hnil), fun a ha => ?_⟩
    obtain ⟨b, hb, rfl⟩ := List.mem_map.1 ha
    have hclosed := Modifier.closed_of_alpha? htheme hc (hm m rfl) halpha
    rw [Assignment.withAlpha]
    split
    · exact (hall.fits b hb).faded hspace hclosed
    · exact hall.fits b hb

namespace Utility

variable {name : Text} {rules : List UtilityRule} {default : Option Text} {signed : Bool}

/-- What a rule finds fits, for whatever property. -/
theorem fits_of_takes (htheme : theme.isTame = true) (hrules : ∀ rule ∈ rules, rule.isTame = true)
    (hdefault : default.all Text.isTame = true) (hc : c.Clean) {rule : UtilityRule}
    {found : NamedResult} (h : Takes theme name rules default c.value rule found) :
    (∀ a ∈ found.entry.companions, a.Fits c) ∧
      ∀ property color, Tame property → Assignment.Fits c ⟨property, found.entry.value, color⟩ := by
  have hrule := hrules rule h.mem
  generalize hv : c.value = value at h
  cases h with
  | default => exact ⟨by simp, fun _ _ hp => .of_tame hp (.of_isTame hdefault)⟩
  | @bracketed _ _ _ value type =>
    exact ⟨by simp, fun _ _ hp => ⟨hp, hc.value value type hv, .inr ⟨type, hv⟩⟩⟩
  | @named _ _ _ _ key fraction _ _ hnamed =>
    have hentry := UtilityRule.isTame_of_findNamed? htheme hrule (hc.key key fraction hv)
      (fun f hf => hc.fraction key f (hf ▸ hv)) hnamed
    exact ⟨fun a ha => .of_tame (hentry.companions a ha).1 (hentry.companions a ha).2,
      fun _ _ hp => .of_tame hp hentry.value⟩

theorem allFit_assignments (htheme : theme.isTame = true) {u : Utility} (hu : u.isTame = true)
    (hc : c.Clean) {usesModifier : Bool}
    (h : u.assignments theme c = .ok (assignments, usesModifier)) : AllFit c assignments := by
  cases u with
  | static name declarations =>
    simp only [isTame, Bool.and_eq_true, Bool.not_eq_true', List.isEmpty_eq_false_iff,
      List.all_eq_true] at hu
    obtain ⟨_, h⟩ := ite_error_left_eq_ok.1 h
    cases h
    refine ⟨fun hnil => hu.1 (List.map_eq_nil_iff.1 hnil), fun a ha => ?_⟩
    obtain ⟨p, hp, rfl⟩ := List.mem_map.1 ha
    exact .of_tame (.of_isTame (hu.2 p hp).1) (.of_isTame (hu.2 p hp).2)
  | dynamic name rules default signed =>
    simp only [isTame, Bool.and_eq_true, List.all_eq_true] at hu
    obtain ⟨rule, found, htakes, _, rfl, _⟩ := assignments_eq_ok.1 h
    obtain ⟨hcompanions, hfits⟩ := fits_of_takes htheme hu.1 hu.2 hc htakes
    obtain ⟨hne, hproperties, _⟩ := UtilityRule.isTame_iff.1 (hu.1 rule htakes.mem)
    refine ⟨?_, List.forall_mem_append.2 ⟨fun a ha => ?_, hcompanions⟩⟩
    · exact List.append_ne_nil_of_left_ne_nil (fun hnil => hne (List.map_eq_nil_iff.1 hnil)) _
    · obtain ⟨property, hp, rfl⟩ := List.mem_map.1 ha
      have hp : Tame property := .of_isTame (hproperties property hp)
      rw [RuleEntry.signedValue]
      split
      · -- Negation puts even the text in the brackets into a call.
        exact (hfits property rule.color hp).negated
      · exact hfits property rule.color hp

theorem allFit_assign {settings : Settings} (htheme : theme.isTame = true)
    (hspace : Tame settings.mixingSpace) {u : Utility} (hu : u.isTame = true) (hc : c.Clean)
    (h : u.assign theme settings c = .ok assignments) : AllFit c assignments := by
  obtain ⟨plain, usesModifier, hplain, h⟩ := assign_eq_ok.1 h
  have hall := allFit_assignments htheme hu hc hplain
  refine hall.applyModifier htheme hspace hc (fun m hm => ?_) h
  obtain ⟨_, hm⟩ := Option.ite_none_left_eq_some.1 hm
  exact hm

end Utility

namespace UtilityTable

theorem allFit_assignFirst {settings : Settings} (htheme : theme.isTame = true)
    (hspace : Tame settings.mixingSpace) (hc : c.Clean) {entries : List UtilityEntry}
    (hentries : ∀ e ∈ entries, e.utility.isTame = true) {reason : Option Refusal} {source : Source}
    (h : assignFirst theme settings c reason entries = .ok (source, assignments)) :
    AllFit c assignments := by
  rw [assignFirst_eq] at h
  split at h
  · next e hfind =>
    obtain ⟨result, hassign, h⟩ := map_eq_ok.1 h
    cases h
    exact Utility.allFit_assign htheme hspace (hentries e (List.mem_of_find?_eq_some hfind)) hc
      hassign
  · cases h

/-- All assignments of a tame design fit, and there is at least one. -/
theorem allFit_assign {d : Design} (hd : d.isTame = true) (hc : c.Clean) {source : Source}
    (h : d.utilities.assign d.theme d.settings c = .ok (source, assignments)) :
    AllFit c assignments := by
  simp only [Design.isTame, Bool.and_eq_true, List.all_eq_true] at hd
  obtain ⟨⟨htheme, hentries⟩, hspace⟩ := hd
  have hspace : Tame d.settings.mixingSpace := .of_isTame hspace
  by_cases hkind : c.kind = .arbitrary
  · obtain ⟨value, result, hvalue, happly, h⟩ := (assign_arbitrary_eq_ok hkind).1 h
    cases h
    refine AllFit.applyModifier htheme hspace hc (fun _ hm => hm)
      ⟨List.cons_ne_nil _ _, List.forall_mem_singleton.2 ?_⟩ happly
    have hproperty : Tame (c.property.getD []) := by
      cases hp : c.property with
      | none => exact tame_nil
      | some property => exact hc.property property hp
    cases value with
    | named key fraction => exact .of_tame hproperty (hc.key key fraction hvalue)
    | arbitrary value type =>
      exact ⟨hproperty, hc.value value type hvalue, .inr ⟨type, hvalue⟩⟩
  · rw [assign_eq_assignFirst hkind] at h
    exact allFit_assignFirst htheme hspace hc
      (fun e he => hentries e (List.mem_filter.1 he).1) h

end UtilityTable

end UtilityCss
