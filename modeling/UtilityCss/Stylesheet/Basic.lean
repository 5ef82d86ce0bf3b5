import UtilityCss.Text.Basic

/-!
# Stylesheets

A stylesheet is a row of nodes: declarations, rules with a selector, and at-rules
that hold further nodes.

* `Node.rescope`: puts the selector of every rule in place of the `&` of a
  template. The rules inside a rule keep theirs;
* `Node.declarations`: all declarations, in document order.
-/

namespace UtilityCss

/-- A property with its value. -/
structure Declaration where
  property : Text
  value : Text
  important : Bool
  deriving DecidableEq, Repr

/-- A part of a stylesheet. -/
inductive Node where
  | declaration (d : Declaration)
  | rule (selector : Text) (nodes : List Node)
  | atRule (name params : Text) (nodes : List Node)
  deriving Repr

namespace Node

mutual

/-- The node with the selector of every rule put in place of `&` in `template`. -/
def rescope (template : Text) : Node → Node
  | declaration d => declaration d
  | rule selector nodes => rule (template.substitute '&' selector) nodes
  | atRule name params nodes => atRule name params (rescopeAll template nodes)

/-- `rescope` on each node of a list. -/
def rescopeAll (template : Text) : List Node → List Node
  | [] => []
  | node :: nodes => rescope template node :: rescopeAll template nodes

end

mutual

/-- The declarations of a node, in document order. -/
def declarations : Node → List Declaration
  | declaration d => [d]
  | rule _ nodes => declarationsOfAll nodes
  | atRule _ _ nodes => declarationsOfAll nodes

/-- The declarations of all nodes of a list, in document order. -/
def declarationsOfAll : List Node → List Declaration
  | [] => []
  | node :: nodes => declarations node ++ declarationsOfAll nodes

end

theorem declarationsOfAll_eq_flatMap (nodes : List Node) :
    declarationsOfAll nodes = nodes.flatMap declarations := by
  induction nodes with
  | nil => rfl
  | cons node nodes ih => simp [declarationsOfAll, ih]

end Node

end UtilityCss
