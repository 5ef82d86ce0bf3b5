import UtilityCss.Theme.Basic
import UtilityCss.Utility.Table

/-!
# The stock utilities

The utilities of a design that names none of its own, in the order of their rules:
accessibility, visibility and position, spacing, layout, sizing, typography, and
what concerns backgrounds, borders and effects.

Most dynamic utilities have a rule for lengths (`spacingRule`) or one for colors
(`colorRule`).
-/

namespace UtilityCss

namespace UtilityRule

/-- The map of some literals. -/
def keywordMap (pairs : List (String × String)) : OrderedMap Text :=
  .ofList (pairs.map fun p => (p.1.toList, p.2.toList))

/-- The keywords of a color. -/
def colorKeywords : OrderedMap Text :=
  keywordMap [("transparent", "transparent"), ("current", "currentColor"), ("inherit", "inherit")]

/-- The keywords of a size. -/
def sizeKeywords : List (String × String) :=
  [("auto", "auto"), ("full", "100%"), ("min", "min-content"), ("max", "max-content"),
    ("fit", "fit-content")]

/-- A rule for lengths on the spacing scale. -/
def spacingRule (properties : List Text) (keywords : List (String × String))
    (fractions : Bool) : UtilityRule where
  properties
  namespaces := ["--spacing"]
  keywords := keywordMap keywords
  bare := if fractions then [.spacing, .fraction] else [.spacing]
  template := .hole
  dataTypes := ["length", "percentage"]
  fallback := true
  color := false
  companions := []
  ignored := []

/-- A rule for colors. -/
def colorRule (properties : List Text) : UtilityRule where
  properties
  namespaces := ["--color"]
  keywords := colorKeywords
  bare := []
  template := .hole
  dataTypes := ["color"]
  fallback := true
  color := true
  companions := []
  ignored := []

/-- A rule for the width of a line in whole pixels. -/
def pixelRule (properties : List Text) (dataTypes : List Text) : UtilityRule :=
  { ofProperties properties with
    bare := [.integer], template := (Template.ofText? "\x7b\x7dpx").get rfl, dataTypes }

end UtilityRule

namespace Utility

open UtilityRule

/-- A static utility of one declaration. -/
def declaring (name property value : Text) : Utility :=
  static name [(property, value)]

/-- A static utility of several declarations. -/
def declaringAll (name : Text) (declarations : List (String × String)) : Utility :=
  static name (declarations.map fun p => (p.1.toList, p.2.toList))

/-- Static utilities that set one property, each to a value. -/
def declaringEach (start property : Text) (values : List (String × String)) : List Utility :=
  values.map fun p => declaring (start ++ p.1.toList) property p.2.toList

/-- A dynamic utility of one rule, without a sign or a default. -/
def ofRule (name : Text) (rule : UtilityRule) : Utility :=
  dynamic name [rule] none false

/-- A dynamic utility of one rule that takes a sign. -/
def ofSignedRule (name : Text) (rule : UtilityRule) : Utility :=
  dynamic name [rule] none true

/-- Accessibility, visibility and position. -/
def stockPosition : List Utility :=
  let insetKeywords := [("auto", "auto"), ("full", "100%")]
  [declaringAll "sr-only"
      [("position", "absolute"), ("width", "1px"), ("height", "1px"), ("padding", "0"),
        ("margin", "-1px"), ("overflow", "hidden"), ("clip", "rect(0, 0, 0, 0)"),
        ("white-space", "nowrap"), ("border-width", "0")],
    declaringAll "not-sr-only"
      [("position", "static"), ("width", "auto"), ("height", "auto"), ("padding", "0"),
        ("margin", "0"), ("overflow", "visible"), ("clip", "auto"), ("white-space", "normal")],
    declaring "visible" "visibility" "visible",
    declaring "invisible" "visibility" "hidden"]
  ++ ["static", "fixed", "absolute", "relative", "sticky"].map (fun (name : String) =>
    declaring name "position" name)
  ++ ["inset", "top", "right", "bottom", "left"].map (fun (name : String) =>
    ofSignedRule name (spacingRule [name] insetKeywords true))
  ++ [ofSignedRule "z"
    { ofProperties ["z-index"] with
      keywords := keywordMap [("auto", "auto")], bare := [.integer], dataTypes := ["integer"],
      fallback := true }]

/-- The properties of the utilities for the four sides, by the letter that stands
    behind the name: all sides, two, or one. -/
def sides (property : Text) : List (Text × List Text) :=
  let side (name : String) : Text := property ++ '-' :: name.toList
  [([], [property]), (['x'], [side "left", side "right"]), (['y'], [side "top", side "bottom"]),
    (['t'], [side "top"]), (['r'], [side "right"]), (['b'], [side "bottom"]),
    (['l'], [side "left"])]

/-- Margins and paddings. -/
def stockSpacing : List Utility :=
  (sides "margin").map (fun (letter, properties) =>
    ofSignedRule ('m' :: letter) (spacingRule properties [("auto", "auto")] false))
  ++ (sides "padding").map (fun (letter, properties) =>
    ofRule ('p' :: letter) (spacingRule properties [] false))

/-- Display, flexible boxes, grids and gaps. -/
def stockLayout : List Utility :=
  declaringEach [] "display"
    [("block", "block"), ("inline-block", "inline-block"), ("inline", "inline"), ("flex", "flex"),
      ("inline-flex", "inline-flex"), ("grid", "grid"), ("inline-grid", "inline-grid"),
      ("contents", "contents"), ("table", "table"), ("hidden", "none")]
  ++ [declaring "flex-row" "flex-direction" "row",
    declaring "flex-col" "flex-direction" "column",
    declaring "flex-wrap" "flex-wrap" "wrap",
    declaring "flex-nowrap" "flex-wrap" "nowrap",
    ofRule "flex"
      { ofProperties ["flex"] with
        keywords := keywordMap
          [("1", "1 1 0%"), ("auto", "1 1 auto"), ("initial", "0 1 auto"), ("none", "none")],
        bare := [.fraction], fallback := true },
    dynamic "grow" [{ ofProperties ["flex-grow"] with bare := [.integer], fallback := true }]
      (some ['1']) false,
    dynamic "shrink" [{ ofProperties ["flex-shrink"] with bare := [.integer], fallback := true }]
      (some ['1']) false,
    ofRule "basis" (spacingRule ["flex-basis"] sizeKeywords true),
    ofRule "grid-cols"
      { ofProperties ["grid-template-columns"] with
        keywords := keywordMap [("none", "none"), ("subgrid", "subgrid")],
        bare := [.integer],
        template := (Template.ofText? "repeat(\x7b\x7d, minmax(0, 1fr))").get rfl,
        fallback := true }]
  ++ declaringEach "items-" "align-items"
    [("start", "flex-start"), ("center", "center"), ("end", "flex-end"), ("stretch", "stretch"),
      ("baseline", "baseline")]
  ++ declaringEach "justify-" "justify-content"
    [("start", "flex-start"), ("center", "center"), ("end", "flex-end"),
      ("between", "space-between"), ("around", "space-around"), ("evenly", "space-evenly")]
  ++ [ofRule "gap" (spacingRule ["gap"] [] false),
    ofRule "gap-x" (spacingRule ["column-gap"] [] false),
    ofRule "gap-y" (spacingRule ["row-gap"] [] false)]

/-- Widths and heights. -/
def stockSizing : List Utility :=
  [ofRule "w" (spacingRule ["width"] (sizeKeywords ++ [("screen", "100vw")]) true),
    ofRule "min-w" (spacingRule ["min-width"] sizeKeywords true),
    ofRule "max-w"
      { ofProperties ["max-width"] with
        namespaces := ["--container", "--spacing"],
        keywords := keywordMap (sizeKeywords ++ [("none", "none")]),
        bare := [.fraction], dataTypes := ["length", "percentage"], fallback := true },
    ofRule "h" (spacingRule ["height"] (sizeKeywords ++ [("screen", "100vh")]) true),
    ofRule "min-h" (spacingRule ["min-height"] (sizeKeywords ++ [("screen", "100vh")]) true),
    ofRule "size" (spacingRule ["width", "height"] sizeKeywords true)]

/-- Fonts, text and its decoration. -/
def stockTypography : List Utility :=
  [dynamic "font"
      [{ ofProperties ["font-weight"] with
          namespaces := ["--font-weight"], bare := [.integer], dataTypes := ["number"] },
        { ofProperties ["font-family"] with
          namespaces := ["--font"], dataTypes := ["family-name"], fallback := true,
          ignored := ["--font-weight"] }]
      none false,
    dynamic "text"
      [{ ofProperties ["font-size"] with
          namespaces := ["--text"], dataTypes := ["length", "percentage"],
          companions := [("line-height", "--line-height")] },
        colorRule ["color"]]
      none false,
    ofRule "leading"
      { ofProperties ["line-height"] with
        namespaces := ["--leading", "--spacing"], keywords := keywordMap [("none", "1")],
        bare := [.spacing], dataTypes := ["number", "length", "percentage"], fallback := true },
    ofSignedRule "tracking"
      { ofProperties ["letter-spacing"] with
        namespaces := ["--tracking"], dataTypes := ["length"], fallback := true },
    declaring "italic" "font-style" "italic",
    declaring "not-italic" "font-style" "normal",
    declaring "underline" "text-decoration-line" "underline",
    declaring "overline" "text-decoration-line" "overline",
    declaring "line-through" "text-decoration-line" "line-through",
    declaring "no-underline" "text-decoration-line" "none",
    dynamic "decoration"
      [colorRule ["text-decoration-color"],
        { pixelRule ["text-decoration-thickness"] ["length", "percentage"] with
          keywords := keywordMap [("auto", "auto"), ("from-font", "from-font")] }]
      none false,
    declaring "uppercase" "text-transform" "uppercase",
    declaring "lowercase" "text-transform" "lowercase",
    declaring "capitalize" "text-transform" "capitalize",
    declaring "normal-case" "text-transform" "none",
    declaringAll "truncate"
      [("overflow", "hidden"), ("text-overflow", "ellipsis"), ("white-space", "nowrap")],
    declaringAll "antialiased"
      [("-webkit-font-smoothing", "antialiased"), ("-moz-osx-font-smoothing", "grayscale")],
    ofRule "content"
      { ofProperties ["content"] with
        keywords := keywordMap [("none", "none")], fallback := true }]

/-- The utility for the border at some sides, by the ending of its name. -/
def borderUtility (ending : Text) (sides : List String) : Utility :=
  let properties (last : String) : List Text :=
    if sides.isEmpty then ["border-".toList ++ last.toList]
    else sides.map fun side => Text.join ['-'] ["border", side.toList, last]
  dynamic ("border".toList ++ ending)
    [pixelRule (properties "width") ["length"], colorRule (properties "color")] (some "1px") false

/-- Backgrounds, borders and effects. The radius of bare `rounded` is that of the
    theme. -/
def stockSurface (theme : Theme) : List Utility :=
  [dynamic "bg"
      [colorRule ["background-color"],
        { ofProperties ["background-image"] with
          keywords := keywordMap [("none", "none")], dataTypes := ["url", "image"] }]
      none false,
    borderUtility [] [],
    borderUtility "-x" ["left", "right"],
    borderUtility "-y" ["top", "bottom"],
    borderUtility "-t" ["top"],
    borderUtility "-r" ["right"],
    borderUtility "-b" ["bottom"],
    borderUtility "-l" ["left"],
    dynamic "rounded"
      [{ ofProperties ["border-radius"] with
          namespaces := ["--radius"],
          keywords := keywordMap [("none", "0"), ("full", "calc(infinity * 1px)")],
          dataTypes := ["length", "percentage"], fallback := true }]
      (some ((theme.get? "--radius").getD "0.25rem")) false,
    ofRule "opacity"
      { ofProperties ["opacity"] with
        namespaces := ["--opacity"], bare := [.percentage], dataTypes := ["number", "percentage"],
        fallback := true },
    ofRule "accent" (colorRule ["accent-color"]),
    ofRule "caret" (colorRule ["caret-color"]),
    ofRule "fill" (colorRule ["fill"]),
    ofRule "stroke" (colorRule ["stroke"]),
    ofRule "cursor"
      { ofProperties ["cursor"] with
        keywords := keywordMap
          (["auto", "default", "pointer", "wait", "text", "move", "help", "not-allowed", "none",
            "grab", "grabbing"].map fun name => (name, name)),
        fallback := true }]

/-- All stock utilities of a theme, in order. -/
def stockUtilities (theme : Theme) : List Utility :=
  stockPosition ++ stockSpacing ++ stockLayout ++ stockSizing ++ stockTypography
    ++ stockSurface theme

end Utility

namespace UtilityTable

/-- The stock table of a theme. -/
def stock (theme : Theme) : UtilityTable :=
  ofUtilities (Utility.stockUtilities theme)

end UtilityTable

end UtilityCss
