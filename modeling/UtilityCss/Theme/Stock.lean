import UtilityCss.Theme.Basic

/-!
# The stock theme

The variables of a design that names no theme of its own: colors in eleven
shades, the spacing scale, breakpoints and container sizes, text sizes with their
line heights, fonts, leading, tracking and radii.

The pairs are listed in the order of the theme, and no name comes twice.
-/

namespace UtilityCss

namespace Theme

/-- A row of named values. -/
abbrev Row := List (Text × Text)

/-- The row of a list of literals. -/
def row (pairs : List (String × String)) : Row :=
  pairs.map fun p => (p.1.toList, p.2.toList)

/-- The shades of every color of the palette. -/
def shades : List Text :=
  ["50", "100", "200", "300", "400", "500", "600", "700", "800", "900", "950"]

/-- The colors of the palette, each with the values of its shades. -/
def palette : List (Text × List Text) :=
  [("red", ["#fef2f2", "#fee2e2", "#fecaca", "#fca5a5", "#f87171", "#ef4444", "#dc2626",
      "#b91c1c", "#991b1b", "#7f1d1d", "#450a0a"]),
    ("green", ["#f0fdf4", "#dcfce7", "#bbf7d0", "#86efac", "#4ade80", "#22c55e", "#16a34a",
      "#15803d", "#166534", "#14532d", "#052e16"]),
    ("blue", ["#eff6ff", "#dbeafe", "#bfdbfe", "#93c5fd", "#60a5fa", "#3b82f6", "#2563eb",
      "#1d4ed8", "#1e40af", "#1e3a8a", "#172554"]),
    ("gray", ["#f9fafb", "#f3f4f6", "#e5e7eb", "#d1d5db", "#9ca3af", "#6b7280", "#4b5563",
      "#374151", "#1f2937", "#111827", "#030712"])]

/-- The spacing scale. A step is a quarter of a rem. -/
def spacingScale : Row :=
  row [("0", "0px"), ("0.5", "0.125rem"), ("1", "0.25rem"), ("1.5", "0.375rem"), ("2", "0.5rem"),
    ("2.5", "0.625rem"), ("3", "0.75rem"), ("3.5", "0.875rem"), ("4", "1rem"), ("5", "1.25rem"),
    ("6", "1.5rem"), ("7", "1.75rem"), ("8", "2rem"), ("9", "2.25rem"), ("10", "2.5rem"),
    ("11", "2.75rem"), ("12", "3rem"), ("14", "3.5rem"), ("16", "4rem"), ("20", "5rem"),
    ("24", "6rem"), ("28", "7rem"), ("32", "8rem"), ("36", "9rem"), ("40", "10rem"),
    ("44", "11rem"), ("48", "12rem"), ("52", "13rem"), ("56", "14rem"), ("60", "15rem"),
    ("64", "16rem"), ("72", "18rem"), ("80", "20rem"), ("96", "24rem")]

/-- The text sizes, each with its size and its line height. -/
def textSizes : List (Text × Text × Text) :=
  [("xs", "0.75rem", "1rem"), ("sm", "0.875rem", "1.25rem"), ("base", "1rem", "1.5rem"),
    ("lg", "1.125rem", "1.75rem"), ("xl", "1.25rem", "1.75rem"), ("2xl", "1.5rem", "2rem"),
    ("3xl", "1.875rem", "2.25rem"), ("4xl", "2.25rem", "2.5rem"), ("5xl", "3rem", "1"),
    ("6xl", "3.75rem", "1")]

/-- The sizes that queries of the viewport and of containers name. -/
def querySizes : Row :=
  row [("--breakpoint-sm", "40rem"), ("--breakpoint-md", "48rem"), ("--breakpoint-lg", "64rem"),
    ("--breakpoint-xl", "80rem"), ("--breakpoint-2xl", "96rem"), ("--container-3xs", "16rem"),
    ("--container-2xs", "18rem"), ("--container-xs", "20rem"), ("--container-sm", "24rem"),
    ("--container-md", "28rem"), ("--container-lg", "32rem"), ("--container-xl", "36rem"),
    ("--container-2xl", "42rem")]

/-- Fonts, leading, tracking and radii. -/
def typography : Row :=
  row [("--font-sans", "ui-sans-serif, system-ui, sans-serif"),
    ("--font-serif", "ui-serif, Georgia, serif"),
    ("--font-mono", "ui-monospace, SFMono-Regular, monospace"), ("--font-weight-thin", "100"),
    ("--font-weight-light", "300"), ("--font-weight-normal", "400"),
    ("--font-weight-medium", "500"), ("--font-weight-semibold", "600"),
    ("--font-weight-bold", "700"), ("--font-weight-black", "900"), ("--leading-tight", "1.25"),
    ("--leading-snug", "1.375"), ("--leading-normal", "1.5"), ("--leading-relaxed", "1.625"),
    ("--leading-loose", "2"), ("--tracking-tight", "-0.025em"), ("--tracking-normal", "0em"),
    ("--tracking-wide", "0.025em"), ("--radius", "0.25rem"), ("--radius-sm", "0.125rem"),
    ("--radius-md", "0.375rem"), ("--radius-lg", "0.5rem"), ("--radius-xl", "0.75rem"),
    ("--radius-2xl", "1rem")]

/-- The color variables. -/
def colorVariables : Row :=
  ("--color-black", "#000") :: ("--color-white", "#fff") ::
    palette.flatMap fun (name, values) =>
      (shades.zip values).map fun (shade, value) =>
        (variableName (variableName "--color" name) shade, value)

/-- The spacing variables. -/
def spacingVariables : Row :=
  ("--spacing", "0.25rem") :: ("--spacing-px", "1px") ::
    spacingScale.map fun (key, value) => (variableName "--spacing" key, value)

/-- The variables for text sizes. -/
def textVariables : Row :=
  textSizes.flatMap fun (key, size, lineHeight) =>
    let name := variableName "--text" key
    [(name, size), (name ++ "--line-height".toList, lineHeight)]

/-- All variables of the stock theme. -/
def stockVariables : Row :=
  colorVariables ++ spacingVariables ++ querySizes ++ textVariables ++ typography

/-- The stock theme. -/
def stock : Theme where
  values := .ofList stockVariables

end Theme

end UtilityCss
