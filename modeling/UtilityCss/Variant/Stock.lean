import UtilityCss.Variant.Table

/-!
# The stock variants

The variants of a design that names none of its own, in cascade order: from the
direct children `*` to forced colors. The breakpoints of the theme stand between
`max` and `min`, each as a variant of its own, so a breakpoint that bears the name
of another stock variant is a duplicate.
-/

namespace UtilityCss

namespace VariantDefinition

/-- A variant that changes the selector. -/
def selector (name template : Text) (compounds : Bool) : VariantDefinition :=
  ⟨name, .fixed (.selector template) compounds⟩

/-- A variant that puts an at-rule around the rule. -/
def atRule (name rule params : Text) : VariantDefinition :=
  ⟨name, .fixed (.atRule rule params) true⟩

/-- A variant that asks for something by its argument. -/
def query (name : Text) (query : Query) (values : List Text) : VariantDefinition :=
  ⟨name, .functional query.wrap? values⟩

/-- A compound root, which takes bracketed selectors too. -/
def relation (name : Text) (relation : Relation) : VariantDefinition :=
  ⟨name, .compound ⟨relation.compound?, some relation.arbitrary?⟩⟩

end VariantDefinition

namespace VariantTable

open VariantDefinition

/-- The pseudo-elements, by variant name. They do not compound. -/
def pseudoElements : List (String × String) :=
  [("first-letter", "::first-letter"), ("first-line", "::first-line"), ("marker", "::marker"),
    ("selection", "::selection"), ("file", "::file-selector-button"),
    ("placeholder", "::placeholder"), ("backdrop", "::backdrop"), ("before", "::before"),
    ("after", "::after")]

/-- The pseudo-classes, by variant name. -/
def pseudoClasses : List (String × String) :=
  [("first", ":first-child"), ("last", ":last-child"), ("only", ":only-child"),
    ("odd", ":nth-child(odd)"), ("even", ":nth-child(even)"), ("first-of-type", ":first-of-type"),
    ("last-of-type", ":last-of-type"), ("empty", ":empty"), ("visited", ":visited"),
    ("target", ":target"), ("open", ":is([open], :popover-open)"), ("default", ":default"),
    ("checked", ":checked"), ("indeterminate", ":indeterminate"),
    ("placeholder-shown", ":placeholder-shown"), ("autofill", ":autofill"),
    ("optional", ":optional"), ("required", ":required"), ("valid", ":valid"),
    ("invalid", ":invalid"), ("in-range", ":in-range"), ("out-of-range", ":out-of-range"),
    ("read-only", ":read-only"), ("focus-within", ":focus-within"), ("hover", ":hover"),
    ("focus", ":focus"), ("focus-visible", ":focus-visible"), ("active", ":active"),
    ("enabled", ":enabled"), ("disabled", ":disabled")]

/-- The preferences about motion and contrast that a media query asks for. -/
def preferences : List (String × String) :=
  [("motion-safe", "(prefers-reduced-motion: no-preference)"),
    ("motion-reduce", "(prefers-reduced-motion: reduce)"),
    ("contrast-more", "(prefers-contrast: more)"), ("contrast-less", "(prefers-contrast: less)")]

/-- The variants before the breakpoints. -/
def stockBefore : List VariantDefinition :=
  [selector "*" ":is(& > *)" false,
    relation "not" .negation,
    relation "group" (.marked "group" " *"),
    relation "peer" (.marked "peer" " ~ *")]
  ++ pseudoElements.map (fun (name, pseudo) => selector name ('&' :: pseudo.toList) false)
  ++ pseudoClasses.map (fun (name, pseudo) => selector name ('&' :: pseudo.toList) true)
  ++ [relation "in" .within,
    relation "has" .containing,
    query "aria" .aria ariaStates,
    query "data" .data [],
    query "nth" (.position "nth-child") [],
    query "nth-last" (.position "nth-last-child") [],
    query "supports" .supports []]
  ++ preferences.map (fun (name, params) => atRule name "@media" params)

/-- The variants that ask for a size of the viewport: `max`, the breakpoints of the
    theme, and `min`. -/
def stockBreakpoints (theme : Theme) : List VariantDefinition :=
  let breakpoints := theme.keysUnder "--breakpoint"
  let asks (operator : Text) : Query :=
    .size ⟨theme, "--breakpoint", "@media", operator, false⟩
  let size (key : Text) : Text := (theme.valueFor? key ["--breakpoint"]).getD []
  [query "max" (asks ['<']) breakpoints]
  ++ breakpoints.map (fun key =>
    atRule key "@media" (Text.join [] ["(width >= ", size key, ")"]))
  ++ [query "min" (asks ['>', '=']) breakpoints]

/-- The variants that ask for a size of a container. -/
def stockContainers (theme : Theme) : List VariantDefinition :=
  let containers := theme.keysUnder "--container"
  let asks (operator : Text) : Query :=
    .size ⟨theme, "--container", "@container", operator, true⟩
  [query "@max" (asks ['<']) containers,
    query "@" (asks ['>', '=']) containers,
    query "@min" (asks ['>', '=']) containers]

/-- The variants after the sizes. -/
def stockAfter : List VariantDefinition :=
  [atRule "portrait" "@media" "(orientation: portrait)",
    atRule "landscape" "@media" "(orientation: landscape)",
    selector "ltr" "&:where(:dir(ltr), [dir=ltr], [dir=ltr] *)" true,
    selector "rtl" "&:where(:dir(rtl), [dir=rtl], [dir=rtl] *)" true,
    atRule "dark" "@media" "(prefers-color-scheme: dark)",
    atRule "print" "@media" "print",
    atRule "forced-colors" "@media" "(forced-colors: active)"]

/-- All stock variants of a theme, in cascade order. -/
def stockDefinitions (theme : Theme) : List VariantDefinition :=
  stockBefore ++ stockBreakpoints theme ++ stockContainers theme ++ stockAfter

/-- The stock table of a theme, unless one of its breakpoints is a duplicate. -/
def stock (theme : Theme) : Except VariantTableError VariantTable :=
  build (stockDefinitions theme)

end VariantTable

end UtilityCss
