import UtilityCss.Proofs.Compilation.ClosedForm
import UtilityCss.Proofs.Compilation.Faultless

/-!
# Named values

Whether a utility takes a named value, told without its assignments. A rule *knows* a key that it
looks up with success or that is in one of its bare forms (`UtilityRule.knows_iff`). The first rule
of a utility that knows the key takes it (`Utility.takes_of_find?`), and all that is then asked of
it is a sign for a negative value and a color for a modifier (`Utility.exists_assign_of_takes`).
Among several entries with one name it is enough that one takes the candidate
(`UtilityTable.exists_assignFirst`).

* `Design.Styles`: a class compiles to CSS;
* `Design.styles_of_candidateOf?`: for a class without variants, this is up to its utility.
-/

namespace UtilityCss

variable {theme : Theme} {settings : Settings} {key : Text}

/-! ## Rules -/

namespace UtilityRule

variable {rule : UtilityRule} {entry : RuleEntry}

/-- Whether the rule makes an entry of a key. -/
def knows (rule : UtilityRule) (theme : Theme) (key : Text) : Bool :=
  match rule.findKey? theme key with
  | .ok (some _) => true
  | _ => false

theorem knows_eq_true : rule.knows theme key = true ↔
    ∃ entry, rule.findKey? theme key = .ok (some entry) := by
  rw [knows]
  split
  · next entry h => exact ⟨fun _ => ⟨entry, h⟩, fun _ => rfl⟩
  · next hne => exact ⟨nofun, fun ⟨entry, h⟩ => absurd h (hne entry)⟩

/-- A rule knows a key that it looks up with success, or that is in one of its bare forms. -/
theorem knows_iff (hkey : key.isNamedValue = true) (hrule : rule.template.isFillable = true) :
    rule.knows theme key = true ↔ (rule.lookUp? theme key).isSome = true ∨
      ∃ form ∈ rule.bare, ∃ value, form.value? theme key = .ok (some value) := by
  have hforms : ∀ form ∈ rule.bare, ∃ value, form.value? theme key = .ok value := fun form _ =>
    BareForm.exists_value? theme hkey form
  rw [knows_eq_true, findKey?, ← exists_findSomeM?_eq_ok hforms]
  cases rule.lookUp? theme key with
  | some entry => simp
  | none =>
    obtain ⟨found, hfound⟩ := findSomeM?_ok hforms
    rw [hfound]
    cases found with
    | none => simp [bind, Except.bind, pure, Except.pure]
    | some value =>
      obtain ⟨text, htext⟩ := Template.exists_fill hrule value
      simp [bind, Except.bind, pure, Except.pure, htext]

end UtilityRule

/-! ## Utilities -/

/-- A modifier asks for a color, and for an alpha that it stands for. -/
theorem exists_applyModifier {modifier : Option Modifier} {assignments : List Assignment} :
    (∃ result, applyModifier theme settings modifier assignments = .ok result) ↔
      ∀ m, modifier = some m →
        assignments.any (·.color) = true ∧ (m.alpha? theme).isSome = true := by
  cases modifier with
  | none => simp [applyModifier]
  | some m =>
    simp only [applyModifier_eq_ok, Option.some.injEq, forall_eq', Option.isSome_iff_exists]
    constructor
    · rintro ⟨_, hcolor, alpha, halpha, _⟩
      exact ⟨hcolor, alpha, halpha⟩
    · rintro ⟨hcolor, alpha, halpha⟩
      exact ⟨_, hcolor, alpha, halpha, rfl⟩

namespace Utility

variable {name : Text} {rules : List UtilityRule} {default : Option Text} {signed : Bool}
  {rule : UtilityRule} {fraction : Option Text} {c : Candidate}

/-- The first rule that knows a key takes it, if none knows the fraction as a whole. -/
theorem takes_of_find? (hkey : key.isNamedValue = true)
    (hrules : ∀ rule ∈ rules, rule.template.isFillable = true)
    (hfraction : ∀ f, fraction = some f → ∀ rule ∈ rules, rule.findFraction? theme f = none)
    (hfind : rules.find? (·.knows theme key) = some rule) :
    ∃ entry, Takes theme name rules default (some (.named key fraction)) rule ⟨entry, false⟩ := by
  have hnamed (rule : UtilityRule) (hrule : rule ∈ rules) : rule.findNamed? theme key fraction
      = (rule.findKey? theme key).map (·.map (⟨·, false⟩)) :=
    UtilityRule.findNamed?_of_key (Option.bind_eq_none_iff.2 fun f hf => hfraction f hf rule hrule)
  obtain ⟨hknows, before, after, rfl, hbefore⟩ := List.find?_eq_some_iff_append.1 hfind
  obtain ⟨entry, hentry⟩ := UtilityRule.knows_eq_true.1 hknows
  refine ⟨entry, .named (fun rule' hmem => ?_) ?_⟩
  · -- The rules in front of the first that knows the key find nothing.
    have hrule' := List.mem_append_left (rule :: after) hmem
    obtain ⟨found, hfound⟩ := @UtilityRule.exists_findKey? theme key rule' hkey
      (hrules rule' hrule')
    cases found with
    | some entry' =>
      have hunknown := hbefore rule' hmem
      rw [UtilityRule.knows_eq_true.2 ⟨entry', hfound⟩] at hunknown
      cases hunknown
    | none =>
      rw [hnamed rule' hrule', hfound]
      rfl
  · rw [hnamed rule (List.mem_append_right _ (.head _)), hentry]
    rfl

/-- A key that no rule knows is not taken. -/
theorem not_takes
    (hfraction : ∀ f, fraction = some f → ∀ rule ∈ rules, rule.findFraction? theme f = none)
    (hfind : rules.find? (·.knows theme key) = none) {found : NamedResult} :
    ¬ Takes theme name rules default (some (.named key fraction)) rule found := by
  intro h
  have hrule := h.mem
  cases h with
  | named _ hnamed =>
    rw [UtilityRule.findNamed?_of_key
      (Option.bind_eq_none_iff.2 fun f hf => hfraction f hf rule hrule)] at hnamed
    obtain ⟨entry, hentry, hnamed⟩ := map_eq_ok.1 hnamed
    obtain ⟨entry, rfl, _⟩ := Option.map_eq_some_iff.1 hnamed
    have hknows := UtilityRule.knows_eq_true.2 ⟨entry, hentry⟩
    exact absurd hknows (List.find?_eq_none.1 hfind _ hrule)

/-- Once a rule has taken the value, a sign has to be allowed, and a modifier that is no part of
    the value needs a color. -/
theorem exists_assign_of_takes {found : NamedResult}
    (h : Takes theme name rules default c.value rule found) :
    (∃ result, (dynamic name rules default signed).assign theme settings c = .ok result) ↔
      (c.negative = true → signed = true) ∧
        (found.usesModifier = false → ∀ m, c.modifier = some m →
          (rule.color = true ∧ rule.properties ≠ []) ∧ (m.alpha? theme).isSome = true) := by
  by_cases hsign : c.negative = true → signed = true
  · rw [assign_of_takes h hsign, and_iff_right hsign]
    simp only [mapError_eq_ok, exists_applyModifier, h.any_color_declared]
    cases found.usesModifier <;> simp
  · refine iff_of_false ?_ fun hall => hsign hall.1
    rintro ⟨result, hresult⟩
    obtain ⟨_, _, hassignments, _⟩ := assign_eq_ok.1 hresult
    obtain ⟨_, _, _, hsign', _⟩ := assignments_eq_ok.1 hassignments
    exact hsign hsign'

/-- A utility takes a key by the first rule that knows it. -/
theorem exists_assign_named (hvalue : c.value = some (.named key fraction))
    (hkey : key.isNamedValue = true) (hrules : ∀ rule ∈ rules, rule.template.isFillable = true)
    (hfraction : ∀ f, fraction = some f → ∀ rule ∈ rules, rule.findFraction? theme f = none) :
    (∃ result, (dynamic name rules default signed).assign theme settings c = .ok result) ↔
      ∃ rule, rules.find? (·.knows theme key) = some rule ∧ (c.negative = true → signed = true) ∧
        ∀ m, c.modifier = some m →
          (rule.color = true ∧ rule.properties ≠ []) ∧ (m.alpha? theme).isSome = true := by
  cases hfind : rules.find? (·.knows theme key) with
  | none =>
    refine iff_of_false ?_ nofun
    rintro ⟨result, hresult⟩
    obtain ⟨_, _, hassign, _⟩ := assign_eq_ok.1 hresult
    obtain ⟨_, _, htakes, _⟩ := assignments_eq_ok.1 hassign
    exact not_takes hfraction hfind (hvalue ▸ htakes)
  | some rule =>
    obtain ⟨entry, htakes⟩ := takes_of_find? hkey hrules hfraction hfind
    rw [exists_assign_of_takes (hvalue ▸ htakes)]
    simp

/-- A utility without a value has only modifiers of a color. -/
theorem exists_assign_static {declarations : List (Text × Text)} (hvalue : c.value = none)
    (hnegative : c.negative = false) :
    (∃ result, (static name declarations).assign theme settings c = .ok result) ↔
      c.modifier = none := by
  obtain ⟨plain, hplain⟩ : ∃ plain,
      assignments theme c (static name declarations) = .ok (plain, false) := by
    rw [assignments, hvalue, hnegative]
    exact ⟨_, rfl⟩
  have hcolor := (color_of_static hplain).1
  have hassign : (static name declarations).assign theme settings c
      = (applyModifier theme settings c.modifier plain).mapError Stop.refused := by
    rw [assign, hplain]
    rfl
  simp only [hassign, mapError_eq_ok, exists_applyModifier, hcolor]
  cases c.modifier <;> simp

end Utility

/-! ## Designs -/

/-- One entry that takes a candidate is enough, if none breaks off. -/
theorem UtilityTable.exists_assignFirst {entries : List UtilityEntry} {c : Candidate}
    (h : ∀ e ∈ entries, Answered (e.utility.assign theme settings c)) (reason : Option Refusal) :
    (∃ resolved, assignFirst theme settings c reason entries = .ok resolved) ↔
      ∃ e ∈ entries, ∃ result, e.utility.assign theme settings c = .ok result := by
  rw [assignFirst_eq]
  cases hfind : entries.find? fun e => (e.refusal? theme settings c).isNone with
  | none =>
    refine iff_of_false nofun ?_
    rintro ⟨e, he, result, hresult⟩
    have hrefused := List.find?_eq_none.1 hfind e he
    rw [UtilityEntry.refusal?, hresult] at hrefused
    exact hrefused rfl
  | some e =>
    have he := List.mem_of_find?_eq_some hfind
    have husable := List.find?_some hfind
    rw [UtilityEntry.isNone_refusal? (h e he)] at husable
    obtain ⟨result, hresult⟩ := UtilityEntry.isUsable_iff.1 husable
    exact iff_of_true ⟨_, map_eq_ok.2 ⟨result, hresult, rfl⟩⟩ ⟨e, he, result, hresult⟩

namespace Design

variable {d : Design} {raw : Text} {c : Candidate}

/-- A class compiles to CSS. -/
def Styles (d : Design) (raw : Text) : Prop :=
  ∃ node source, d.compilationOf raw = .ok (.produced node source)

/-- Whether a class without variants compiles to CSS is up to the utilities with its name. -/
theorem styles_of_candidateOf? (hd : d.isSound = true) (hc : d.candidateOf? raw = some c)
    (hvariants : c.variants = []) (hkind : c.kind ≠ .arbitrary) :
    d.Styles raw ↔ ∃ e ∈ d.utilities.get c.root, ∃ result,
      e.utility.assign d.theme d.settings c = .ok result := by
  have hsound : ∀ e ∈ d.utilities.get c.root, e.utility.isSound = true := fun e he =>
    List.all_eq_true.1 hd e (List.mem_filter.1 he).1
  have hanswered : ∀ e ∈ d.utilities.get c.root,
      Answered (e.utility.assign d.theme d.settings c) := fun e he =>
    Utility.answered_assign (hsound e he) (Candidate.compilable_of_ofText? hc)
  rw [Styles, compilationOf, hc, ← UtilityTable.exists_assignFirst hanswered none,
    ← UtilityTable.assign_eq_assignFirst hkind]
  dsimp only
  constructor
  · rintro ⟨node, source, h⟩
    exact (Candidate.compile_nodes_ne_nil.1 ⟨_, h, List.cons_ne_nil _ _⟩).1
  · rintro ⟨⟨source, assignments⟩, h⟩
    have hwraps : c.variants.map (Variant.wrap? d.variants) = ([] : List Wrap).map some := by
      rw [hvariants]
      rfl
    exact ⟨_, source, Candidate.compile_of_wraps h hwraps⟩

end Design

end UtilityCss
