import UtilityCss.Proofs.Variant.Table
import UtilityCss.Theme.Stock
import UtilityCss.Variant.Stock

/-!
# The stock variants make a table

No two stock variants have the same name, as the breakpoints of the stock theme have names of
their own. Those of any theme are of a few kinds.

* `VariantTable.map_name_stockDefinitions`: the names of the stock variants of a theme;
* `VariantTable.stock_eq_ok_of_nodup`, `VariantTable.stock_eq_ok`: the table of a theme, and of the
  stock theme;
* `VariantDefinition.IsStock`: the kinds of stock variants, which is all that is needed to know of
  their table.
-/

namespace UtilityCss

/-- The names of the breakpoints of the stock theme. -/
def stockBreakpointKeys : List Text :=
  ["sm", "md", "lg", "xl", "2xl"]

/-- The breakpoints of the stock theme. They are long to find among its values, so what is computed
    of the stock variants is computed with these in their place. -/
theorem Theme.keysUnder_stock : stock.keysUnder "--breakpoint" = stockBreakpointKeys := by
  decide +kernel

namespace VariantTable

/-- The names of the stock variants, among them those of the given breakpoints. -/
def stockNames (breakpoints : List Text) : List Text :=
  stockBefore.map (·.name) ++ "max".toList :: breakpoints
    ++ ["min", "@max", "@", "@min"].map String.toList ++ stockAfter.map (·.name)

theorem map_name_stockDefinitions (theme : Theme) :
    (stockDefinitions theme).map (·.name) = stockNames (theme.keysUnder "--breakpoint") := by
  simp [stockDefinitions, stockBreakpoints, stockContainers, stockNames, VariantDefinition.atRule,
    VariantDefinition.query, Function.comp_def]

/-- The stock variants of a theme make a table if its breakpoints have names of their own. -/
theorem stock_eq_ok_of_nodup {theme : Theme} {breakpoints : List Text}
    (hkeys : theme.keysUnder "--breakpoint" = breakpoints)
    (hne : ∀ name ∈ stockNames breakpoints, name ≠ []) (hnodup : (stockNames breakpoints).Nodup) :
    stock theme = .ok ⟨stockDefinitions theme, true⟩ := by
  have hnames := map_name_stockDefinitions theme
  rw [hkeys] at hnames
  refine build_of_nodup (fun d hd => ?_) (hnames ▸ hnodup)
  exact hne d.name (hnames ▸ List.mem_map_of_mem hd)

theorem stock_eq_ok : stock .stock = .ok ⟨stockDefinitions .stock, true⟩ :=
  stock_eq_ok_of_nodup Theme.keysUnder_stock (by decide +kernel) (by decide +kernel)

/-! ## The kinds of stock variants -/

/-- The templates of the stock variants that change the selector. -/
def stockTemplates : List Text :=
  [":is(& > *)", "&:where(:dir(ltr), [dir=ltr], [dir=ltr] *)",
    "&:where(:dir(rtl), [dir=rtl], [dir=rtl] *)"].map String.toList
    ++ (pseudoElements ++ pseudoClasses).map fun pseudo => '&' :: pseudo.2.toList

/-- The conditions of the stock variants for the medium, those for sizes apart. -/
def stockConditions : List Text :=
  preferences.map (·.2.toList) ++ ["(orientation: portrait)", "(orientation: landscape)",
    "(prefers-color-scheme: dark)", "print", "(forced-colors: active)"].map String.toList

/-- The stock compound roots. -/
def stockRelations : List (Text × Relation) :=
  [("not", .negation), ("group", .marked "group" " *"), ("peer", .marked "peer" " ~ *"),
    ("in", .within), ("has", .containing)]

/-- The functional stock variants that know no argument by name. -/
def unlistedQueries : List (Text × Query) :=
  [("data", .data), ("nth", .position "nth-child"), ("nth-last", .position "nth-last-child"),
    ("supports", .supports)]

/-- The names of the stock variants for sizes of the viewport. -/
def viewportNames : List Text :=
  ["max".toList, "min".toList]

/-- The names of the stock variants for sizes of a container. -/
def atNames : List Text :=
  ["@".toList, "@max".toList, "@min".toList]

/-- The comparisons of the stock variants for sizes. -/
def sizeOperators : List Text :=
  [['<'], ['>', '=']]

end VariantTable

namespace VariantDefinition

open VariantTable

/-- The kinds of stock variants of a theme. -/
inductive IsStock (theme : Theme) : VariantDefinition → Prop
  | selector {name template : Text} {compounds : Bool} : template ∈ stockTemplates →
      IsStock theme (.selector name template compounds)
  | atRule {name condition : Text} : condition ∈ stockConditions →
      IsStock theme (.atRule name "@media" condition)
  | breakpoint {key : Text} : IsStock theme (.atRule key "@media"
      (Text.join [] ["(width >= ", (theme.valueFor? key ["--breakpoint"]).getD [], ")"]))
  | relation {name : Text} {relation : Relation} : (name, relation) ∈ stockRelations →
      IsStock theme (.relation name relation)
  | states : IsStock theme (.query "aria" .aria ariaStates)
  | unlisted {name : Text} {query : Query} : (name, query) ∈ unlistedQueries →
      IsStock theme (.query name query [])
  | viewport {name operator : Text} : name ∈ viewportNames → operator ∈ sizeOperators →
      IsStock theme (.query name (.size ⟨theme, "--breakpoint", "@media", operator, false⟩)
        (theme.keysUnder "--breakpoint"))
  | container {name operator : Text} : name ∈ atNames → operator ∈ sizeOperators →
      IsStock theme (.query name (.size ⟨theme, "--container", "@container", operator, true⟩)
        (theme.keysUnder "--container"))

variable {theme : Theme} {d : VariantDefinition}

theorem isStock_of_mem_stockBefore (hd : d ∈ stockBefore) : d.IsStock theme := by
  have hpseudo {pseudo : String × String} (h : pseudo ∈ pseudoElements ++ pseudoClasses) :
      '&' :: pseudo.2.toList ∈ stockTemplates :=
    List.mem_append_right _ (List.mem_map_of_mem (f := fun p => '&' :: p.2.toList) h)
  simp only [stockBefore, List.mem_append, List.mem_cons, List.not_mem_nil, or_false,
    List.mem_map] at hd
  rcases hd with (((((rfl | rfl | rfl | rfl) | ⟨_, hp, rfl⟩) | ⟨_, hp, rfl⟩)
    | (rfl | rfl | rfl | rfl | rfl | rfl | rfl)) | ⟨_, hp, rfl⟩)
  · exact .selector (.head _)
  · exact .relation (.head _)
  · exact .relation (.tail _ (.head _))
  · exact .relation (.tail _ (.tail _ (.head _)))
  · exact .selector (hpseudo (List.mem_append_left _ hp))
  · exact .selector (hpseudo (List.mem_append_right _ hp))
  · exact .relation (.tail _ (.tail _ (.tail _ (.head _))))
  · exact .relation (.tail _ (.tail _ (.tail _ (.tail _ (.head _)))))
  · exact .states
  · exact .unlisted (.head _)
  · exact .unlisted (.tail _ (.head _))
  · exact .unlisted (.tail _ (.tail _ (.head _)))
  · exact .unlisted (.tail _ (.tail _ (.tail _ (.head _))))
  · exact .atRule (List.mem_append_left _ (List.mem_map_of_mem (f := fun p => p.2.toList) hp))

theorem isStock_of_mem_stockAfter (hd : d ∈ stockAfter) : d.IsStock theme := by
  have hconditions : ∀ condition ∈ ["(orientation: portrait)", "(orientation: landscape)",
      "(prefers-color-scheme: dark)", "print", "(forced-colors: active)"].map String.toList,
      condition ∈ stockConditions := fun _ => List.mem_append_right _
  simp only [List.map_cons, List.map_nil, List.forall_mem_cons] at hconditions
  obtain ⟨hportrait, hlandscape, hdark, hprint, hforced, _⟩ := hconditions
  simp only [stockAfter, List.mem_cons, List.not_mem_nil, or_false] at hd
  rcases hd with rfl | rfl | rfl | rfl | rfl | rfl | rfl
  · exact .atRule hportrait
  · exact .atRule hlandscape
  · exact .selector (.tail _ (.head _))
  · exact .selector (.tail _ (.tail _ (.head _)))
  · exact .atRule hdark
  · exact .atRule hprint
  · exact .atRule hforced

/-- The stock variants of every theme are of these kinds. -/
theorem isStock_of_mem (hd : d ∈ stockDefinitions theme) : d.IsStock theme := by
  have hless : ['<'] ∈ sizeOperators := by decide
  have hmore : ['>', '='] ∈ sizeOperators := by decide
  rw [stockDefinitions, List.mem_append, List.mem_append, List.mem_append] at hd
  rcases hd with ((hd | hd) | hd) | hd
  · exact isStock_of_mem_stockBefore hd
  · simp only [stockBreakpoints, List.mem_append, List.mem_singleton, List.mem_map] at hd
    rcases hd with (rfl | ⟨key, _, rfl⟩) | rfl
    · exact .viewport (by decide) hless
    · exact .breakpoint
    · exact .viewport (by decide) hmore
  · simp only [stockContainers, List.mem_cons, List.not_mem_nil, or_false] at hd
    rcases hd with rfl | rfl | rfl
    · exact .container (by decide) hless
    · exact .container (by decide) hmore
    · exact .container (by decide) hmore
  · exact isStock_of_mem_stockAfter hd

/-- The stock compound roots are relations. -/
theorem IsStock.exists_relation {name : Text} {root : CompoundRoot}
    (h : IsStock theme ⟨name, .compound root⟩) : ∃ relation : Relation,
      (name, relation) ∈ stockRelations ∧
        root = ⟨relation.compound?, some relation.arbitrary?⟩ := by
  cases h with
  | relation hmem => exact ⟨_, hmem, rfl⟩

end VariantDefinition

/-- What a name of a stock table stands for is of one of these kinds. -/
theorem VariantTable.isStock_of_behavior? {theme : Theme} {table : VariantTable}
    (htable : stock theme = .ok table) {name : Text} {behavior : VariantBehavior}
    (h : table.behavior? name = some behavior) : VariantDefinition.IsStock theme ⟨name, behavior⟩ := by
  obtain ⟨d, hd, rfl⟩ := Option.map_eq_some_iff.1 h
  have hname := List.find?_some hd
  have hmem := List.mem_of_find?_eq_some hd
  rw [build_eq_ok htable] at hmem
  exact of_decide_eq_true hname ▸ VariantDefinition.isStock_of_mem hmem

end UtilityCss
