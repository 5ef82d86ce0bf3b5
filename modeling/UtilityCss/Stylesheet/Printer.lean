import UtilityCss.Stylesheet.Basic

/-!
# Printing stylesheets

CSS without white space that could be left out. A block holds first all its
declarations, divided by semicolons, and then the blocks nested in it.
-/

namespace UtilityCss

namespace Declaration

/-- A declaration as CSS. -/
def print (d : Declaration) : Text :=
  d.property ++ ':' :: d.value ++ if d.important then "!important".toList else []

end Declaration

namespace Node

/-- The content of a block between curly brackets. -/
def braced (content : Text) : Text :=
  '\x7b' :: content ++ ['\x7d']

/-- The name and the parameters of an at-rule, divided by a space. -/
def atRuleHead (name params : Text) : Text :=
  if params.isEmpty then name else name ++ ' ' :: params

/-- The declarations among the nodes of a block, as CSS. -/
def printedDeclarations (nodes : List Node) : List Text :=
  nodes.filterMap fun
    | declaration d => some d.print
    | _ => none

mutual

/-- A node as CSS. -/
def print : Node → Text
  | declaration d => d.print
  | rule selector nodes =>
    selector ++ braced (Text.join [';'] (printedDeclarations nodes) ++ printNested nodes)
  | atRule name params nodes =>
    atRuleHead name params
      ++ braced (Text.join [';'] (printedDeclarations nodes) ++ printNested nodes)

/-- The nested blocks among the nodes of a block, as CSS. -/
def printNested : List Node → Text
  | [] => []
  | declaration _ :: nodes => printNested nodes
  | rule selector inside :: nodes => print (rule selector inside) ++ printNested nodes
  | atRule name params inside :: nodes => print (atRule name params inside) ++ printNested nodes

end

/-- A row of nodes as CSS. -/
def printAll (nodes : List Node) : Text :=
  nodes.flatMap print

theorem printAll_singleton (node : Node) : printAll [node] = node.print := by
  simp [printAll]

end Node

end UtilityCss
