import UtilityCss.Compilation.Basic

/-!
# The closed form of compiling

Compiling folds the variants of a candidate around its rule, the innermost first. Wraps of two
kinds take turns in the fold: an at-rule goes around the whole node, while a template changes
the selector of the rule deep inside the at-rules that are there already. As the one touches
only the frame and the other only the selector, the outcome falls apart into two folds that do
not see each other (`Candidate.closedForm`).

* `wrapAll?_eq_some`: the fold succeeds exactly if every variant applies, with the closed form
  as its result;
* `compile_closedForm`: when a candidate gives a node, and which; how wraps of different kinds
  mix does not show in it, and importance shows in the flags alone.
-/

namespace UtilityCss

namespace Wrap

/-- The template of a wrap that changes the selector. -/
def template? : Wrap → Option Text
  | selector template => some template
  | atRule _ _ => none

/-- The name and the parameters of a wrap that is an at-rule. -/
def layer? : Wrap → Option (Text × Text)
  | selector _ => none
  | atRule name params => some (name, params)

end Wrap

namespace Node

/-- A node inside some at-rules, the outermost first. -/
def insideLayers (layers : List (Text × Text)) (node : Node) : Node :=
  layers.foldr (fun layer inner => .atRule layer.1 layer.2 [inner]) node

mutual

/-- The node with the importance of every declaration changed. -/
def withImportance (important : Bool) : Node → Node
  | declaration d => declaration { d with important }
  | rule selector nodes => rule selector (withImportanceAll important nodes)
  | atRule name params nodes => atRule name params (withImportanceAll important nodes)

/-- `withImportance` on each node of a list. -/
def withImportanceAll (important : Bool) : List Node → List Node
  | [] => []
  | node :: nodes => withImportance important node :: withImportanceAll important nodes

end

theorem withImportanceAll_eq_map (important : Bool) (nodes : List Node) :
    withImportanceAll important nodes = nodes.map (withImportance important) := by
  induction nodes with
  | nil => rfl
  | cons node nodes ih => simp [withImportanceAll, ih]

theorem rescope_insideLayers (template : Text) (layers : List (Text × Text)) (node : Node) :
    (insideLayers layers node).rescope template = insideLayers layers (node.rescope template) := by
  induction layers with
  | nil => rfl
  | cons layer layers ih =>
    change atRule layer.1 layer.2 [(insideLayers layers node).rescope template] = _
    rw [ih]
    rfl

theorem withImportance_insideLayers (important : Bool) (layers : List (Text × Text))
    (node : Node) :
    (insideLayers layers node).withImportance important
      = insideLayers layers (node.withImportance important) := by
  induction layers with
  | nil => rfl
  | cons layer layers ih =>
    change atRule layer.1 layer.2 [(insideLayers layers node).withImportance important] = _
    rw [ih]
    rfl

end Node

/-- A selector put in place of `&` in some templates, one after the other, the last first. -/
def throughTemplates (templates : List Text) (selector : Text) : Text :=
  templates.foldr (fun template inner => template.substitute '&' inner) selector

/-- The rule with a selector and declarations, inside the wraps `wraps`, the outermost first:
    the at-rules among them in their order, around one rule whose selector went through the
    templates among them. -/
def wrapped (wraps : List Wrap) (selector : Text) (declarations : List Node) : Node :=
  Node.insideLayers (wraps.filterMap Wrap.layer?)
    (.rule (throughTemplates (wraps.filterMap Wrap.template?) selector) declarations)

/-- One more wrap around a closed form gives a closed form. -/
theorem around_wrapped (wrap : Wrap) (wraps : List Wrap) (selector : Text)
    (declarations : List Node) :
    wrap.around (wrapped wraps selector declarations)
      = wrapped (wrap :: wraps) selector declarations := by
  cases wrap with
  | selector template =>
    -- The template passes the at-rules and meets the selector.
    exact Node.rescope_insideLayers template _ _
  | atRule name params => rfl

/-- The fold over the variants succeeds exactly if each of them has a wrap, and its result is
    the closed form. -/
theorem wrapAll?_eq_some {table : VariantTable} {selector : Text} {declarations : List Node}
    {variants : List Variant} {node : Node} :
    wrapAll? table (.rule selector declarations) variants = some node ↔
      ∃ wraps : List Wrap, variants.map (Variant.wrap? table) = wraps.map some ∧
        node = wrapped wraps selector declarations := by
  induction variants generalizing node with
  | nil =>
    constructor
    · rintro ⟨⟩
      exact ⟨[], rfl, rfl⟩
    · rintro ⟨wraps, h, rfl⟩
      rw [List.map_nil, eq_comm, List.map_eq_nil_iff] at h
      rw [h]
      rfl
  | cons v variants ih =>
    rw [wrapAll?, List.foldr_cons, ← wrapAll?, Option.bind_eq_some_iff]
    constructor
    · rintro ⟨inner, hinner, hnode⟩
      obtain ⟨wraps, hwraps, rfl⟩ := ih.1 hinner
      obtain ⟨wrap, hwrap, rfl⟩ := Option.map_eq_some_iff.1 hnode
      refine ⟨wrap :: wraps, ?_, around_wrapped wrap wraps selector declarations⟩
      rw [List.map_cons, List.map_cons, hwrap, hwraps]
    · rintro ⟨_ | ⟨wrap, wraps⟩, h, rfl⟩
      · cases h
      · rw [List.map_cons, List.map_cons, List.cons.injEq] at h
        refine ⟨wrapped wraps selector declarations, ih.2 ⟨wraps, h.2, rfl⟩, ?_⟩
        rw [h.1, Option.map_some, around_wrapped]

/-- All of some variants apply exactly if there is a list of their wraps. -/
theorem forall_wrap?_isSome {table : VariantTable} {variants : List Variant} :
    (∀ v ∈ variants, (v.wrap? table).isSome) ↔
      ∃ wraps : List Wrap, variants.map (Variant.wrap? table) = wraps.map some := by
  constructor
  · intro h
    induction variants with
    | nil => exact ⟨[], rfl⟩
    | cons v variants ih =>
      obtain ⟨wrap, hwrap⟩ := Option.isSome_iff_exists.1 (h v List.mem_cons_self)
      obtain ⟨wraps, hwraps⟩ := ih fun v' hv' => h v' (List.mem_cons_of_mem _ hv')
      exact ⟨wrap :: wraps, by rw [List.map_cons, List.map_cons, hwrap, hwraps]⟩
  · rintro ⟨wraps, h⟩ v hv
    have hm : v.wrap? table ∈ wraps.map some := h ▸ List.mem_map_of_mem hv
    obtain ⟨wrap, _, hwrap⟩ := List.mem_map.1 hm
    rw [← hwrap, Option.isSome_some]

/-! ## What the assignments depend on -/

/-- What becomes of a candidate whose assignments stop. -/
def Stop.outcome : Stop → Except Fault Compilation
  | refused reason => .ok (.refused reason)
  | faulty fault => .error fault

theorem Utility.assign_with (u : Utility) (theme : Theme) (settings : Settings) (c : Candidate)
    (variants : List Variant) (important : Bool) :
    u.assign theme settings { c with variants, important } = u.assign theme settings c := by
  cases u <;> rfl

theorem UtilityTable.assignFirst_with (theme : Theme) (settings : Settings) (c : Candidate)
    (variants : List Variant) (important : Bool) (reason : Option Refusal)
    (es : List UtilityEntry) :
    assignFirst theme settings { c with variants, important } reason es
      = assignFirst theme settings c reason es := by
  induction es generalizing reason with
  | nil => rfl
  | cons e es ih => simp only [assignFirst, Utility.assign_with, ih]

/-- Neither the variants of a candidate nor its importance has a part in its assignments. -/
theorem UtilityTable.assign_with (table : UtilityTable) (theme : Theme) (settings : Settings)
    (c : Candidate) (variants : List Variant) (important : Bool) :
    table.assign theme settings { c with variants, important } = table.assign theme settings c := by
  simp only [assign, assignFirst_with]

namespace Candidate

/-- What a candidate becomes with the wraps of its variants and its assignments. -/
def closedForm (c : Candidate) (wraps : List Wrap) (assignments : List Assignment) : Node :=
  wrapped wraps ('.' :: Text.escapeIdentifier c.raw)
    (assignments.map fun a => .declaration ⟨a.property, a.value, c.important⟩)

theorem closedForm_withImportance (c : Candidate) (wraps : List Wrap)
    (assignments : List Assignment) (important : Bool) :
    (c.closedForm wraps assignments).withImportance important
      = { c with important }.closedForm wraps assignments := by
  rw [closedForm, wrapped, Node.withImportance_insideLayers, Node.withImportance,
    Node.withImportanceAll_eq_map, List.map_map]
  rfl

variable {d : Design} {c : Candidate}

theorem compile_of_error {stop : Stop} (h : d.utilities.assign d.theme d.settings c = .error stop) :
    c.compile d = stop.outcome := by
  rw [compile, h]
  cases stop <;> rfl

theorem compile_of_ok {source : Source} {assignments : List Assignment}
    (h : d.utilities.assign d.theme d.settings c = .ok (source, assignments)) :
    c.compile d = match wrapAll? d.variants (ruleOf c assignments) c.variants with
      | none => .ok (.refused .inapplicableVariant)
      | some node => .ok (.produced node source) := by
  cases hw : wrapAll? d.variants (ruleOf c assignments) c.variants with
  | none => simp only [compile, h, hw]
  | some node => simp only [compile, h, hw]

/-- With assignments, and with wraps for all variants, a candidate becomes its closed form. -/
theorem compile_of_wraps {source : Source} {assignments : List Assignment} {wraps : List Wrap}
    (h : d.utilities.assign d.theme d.settings c = .ok (source, assignments))
    (hw : c.variants.map (Variant.wrap? d.variants) = wraps.map some) :
    c.compile d = .ok (.produced (c.closedForm wraps assignments) source) := by
  have hn : wrapAll? d.variants (ruleOf c assignments) c.variants
      = some (c.closedForm wraps assignments) := wrapAll?_eq_some.2 ⟨wraps, hw, rfl⟩
  rw [compile_of_ok h, hn]

theorem compile_of_no_wrap {source : Source} {assignments : List Assignment}
    (h : d.utilities.assign d.theme d.settings c = .ok (source, assignments))
    (hw : ¬ ∀ v ∈ c.variants, (v.wrap? d.variants).isSome) :
    c.compile d = .ok (.refused .inapplicableVariant) := by
  rw [compile_of_ok h]
  cases hn : wrapAll? d.variants (ruleOf c assignments) c.variants with
  | none => rfl
  | some node =>
    obtain ⟨wraps, hwraps, _⟩ := wrapAll?_eq_some.1 hn
    exact absurd (forall_wrap?_isSome.2 ⟨wraps, hwraps⟩) hw

/-- A candidate gives a node exactly if its utility resolves and all its variants apply. -/
theorem compile_nodes_ne_nil :
    (∃ outcome, c.compile d = .ok outcome ∧ outcome.nodes ≠ []) ↔
      (∃ resolved, d.utilities.assign d.theme d.settings c = .ok resolved) ∧
        ∀ v ∈ c.variants, (v.wrap? d.variants).isSome := by
  cases h : d.utilities.assign d.theme d.settings c with
  | error stop =>
    rw [compile_of_error h]
    constructor
    · rintro ⟨outcome, ho, hn⟩
      cases stop <;> cases ho
      exact absurd rfl hn
    · rintro ⟨⟨_, hr⟩, _⟩
      cases hr
  | ok resolved =>
    obtain ⟨source, assignments⟩ := resolved
    by_cases hw : ∀ v ∈ c.variants, (v.wrap? d.variants).isSome
    · obtain ⟨wraps, hwraps⟩ := forall_wrap?_isSome.1 hw
      rw [compile_of_wraps h hwraps]
      exact ⟨fun _ => ⟨⟨_, rfl⟩, hw⟩, fun _ => ⟨_, rfl, List.cons_ne_nil _ _⟩⟩
    · rw [compile_of_no_wrap h hw]
      constructor
      · rintro ⟨_, ⟨⟩, hn⟩
        exact absurd rfl hn
      · rintro ⟨_, hw'⟩
        exact absurd hw' hw

/-- How wraps of the two kinds mix does not show in the outcome. -/
theorem compile_with_variants {variants : List Variant} {wraps wraps' : List Wrap}
    (hw : c.variants.map (Variant.wrap? d.variants) = wraps.map some)
    (hw' : variants.map (Variant.wrap? d.variants) = wraps'.map some)
    (ht : wraps'.filterMap Wrap.template? = wraps.filterMap Wrap.template?)
    (hl : wraps'.filterMap Wrap.layer? = wraps.filterMap Wrap.layer?) :
    { c with variants }.compile d = c.compile d := by
  have ha := d.utilities.assign_with d.theme d.settings c variants c.important
  cases h : d.utilities.assign d.theme d.settings c with
  | error stop => rw [compile_of_error h, compile_of_error (ha.trans h)]
  | ok resolved =>
    obtain ⟨source, assignments⟩ := resolved
    rw [compile_of_wraps h hw, compile_of_wraps (ha.trans h) hw', closedForm, closedForm, wrapped,
      wrapped, ht, hl]

end Candidate

namespace Compilation

/-- The outcome with the importance of every declaration changed. -/
def withImportance (important : Bool) : Compilation → Compilation
  | produced node source => produced (node.withImportance important) source
  | refused reason => refused reason

end Compilation

namespace Candidate

variable {d : Design} {c : Candidate}

/-- The importance of a candidate shows in the flags of its declarations alone. -/
theorem compile_with_important (important : Bool) :
    { c with important }.compile d = (c.compile d).map (·.withImportance important) := by
  have ha := d.utilities.assign_with d.theme d.settings c c.variants important
  cases h : d.utilities.assign d.theme d.settings c with
  | error stop =>
    rw [compile_of_error h, compile_of_error (ha.trans h)]
    cases stop <;> rfl
  | ok resolved =>
    obtain ⟨source, assignments⟩ := resolved
    by_cases hw : ∀ v ∈ c.variants, (v.wrap? d.variants).isSome
    · obtain ⟨wraps, hwraps⟩ := forall_wrap?_isSome.1 hw
      rw [compile_of_wraps h hwraps, compile_of_wraps (ha.trans h) hwraps,
        ← closedForm_withImportance]
      rfl
    · rw [compile_of_no_wrap h hw, compile_of_no_wrap (ha.trans h) hw]
      rfl

/-- A candidate gives nodes exactly if its utility resolves and all its variants apply. It is
    then one node, its closed form. Two candidates that differ in how at-rules and templates mix
    come out alike, and importance shows in the flags of the declarations alone. -/
theorem compile_closedForm (d : Design) (c : Candidate) :
    ((∃ outcome, c.compile d = .ok outcome ∧ outcome.nodes ≠ []) ↔
      (∃ resolved, d.utilities.assign d.theme d.settings c = .ok resolved) ∧
        ∀ v ∈ c.variants, (v.wrap? d.variants).isSome) ∧
    (∀ source assignments wraps,
      d.utilities.assign d.theme d.settings c = .ok (source, assignments) →
      c.variants.map (Variant.wrap? d.variants) = wraps.map some →
      c.compile d = .ok (.produced (c.closedForm wraps assignments) source)) ∧
    (∀ variants (wraps wraps' : List Wrap),
      c.variants.map (Variant.wrap? d.variants) = wraps.map some →
      variants.map (Variant.wrap? d.variants) = wraps'.map some →
      wraps'.filterMap Wrap.template? = wraps.filterMap Wrap.template? →
      wraps'.filterMap Wrap.layer? = wraps.filterMap Wrap.layer? →
      { c with variants }.compile d = c.compile d) ∧
    ∀ important,
      { c with important }.compile d = (c.compile d).map (·.withImportance important) :=
  ⟨compile_nodes_ne_nil, fun _ _ _ => compile_of_wraps,
    fun _ _ _ => compile_with_variants, compile_with_important⟩

/-- At-rules and templates take turns in the variants, and come out apart from each other. -/
theorem compile_closedForm_of_mixed_wraps :
    let utility : Utility := .static "underline" [("text-decoration-line", "underline")]
    let wraps : List Wrap := [.atRule "@media" "(width >= 48rem)", .selector "&:hover",
      .atRule "@media" "print", .selector ".dark &"]
    let variants : VariantTable := ⟨[
      ⟨"md", .fixed (.atRule "@media" "(width >= 48rem)") true⟩,
      ⟨"hover", .fixed (.selector "&:hover") true⟩,
      ⟨"print", .fixed (.atRule "@media" "print") true⟩,
      ⟨"dark", .fixed (.selector ".dark &") true⟩], true⟩
    let d : Design := ⟨⟨.empty⟩, .ofUtilities [utility], variants, .stock, rfl, rfl⟩
    let c : Candidate :=
      { raw := "u", kind := .static, root := "underline", value := none, modifier := none,
        variants := [⟨[], .named (.static "md")⟩, ⟨[], .named (.static "hover")⟩,
          ⟨[], .named (.static "print")⟩, ⟨[], .named (.static "dark")⟩],
        important := true, negative := false, property := none }
    let node : Node := .atRule "@media" "(width >= 48rem)" [.atRule "@media" "print"
      [.rule ".dark .u:hover" [.declaration ⟨"text-decoration-line", "underline", true⟩]]]
    c.variants.map (Variant.wrap? d.variants) = wraps.map some ∧
      c.compile d = .ok (.produced node (.entry ⟨0, utility⟩)) :=
  ⟨rfl, (compile_closedForm _ _).2.1 _ [⟨"text-decoration-line", "underline", false⟩]
    [.atRule "@media" "(width >= 48rem)", .selector "&:hover", .atRule "@media" "print",
      .selector ".dark &"] rfl rfl⟩

end Candidate

end UtilityCss
