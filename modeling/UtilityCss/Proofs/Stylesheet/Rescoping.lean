import UtilityCss.Proofs.Stylesheet.DocumentOrder

/-!
# Templates one after the other

The selector of a rule goes through one template after the other, each of which puts it in place of
its own `&`. The selectors of class names may hold an `&` themselves, which is escaped and stands for
no selector. As what is put in is not searched again, two templates come to the same as one: the
second with the first in place of its `&`.

* `Text.substitute_substitute`: replacing in what was put in, or putting in what was replaced;
* `Node.rescope_rescope`: two templates as one, for all rules of a tree;
* `Node.declarationsOfAll_rescopeAll`: a template keeps all declarations;
* `Node.rescope_composes`: both, with the order in which declarations are found.
-/

namespace UtilityCss

/-- Whatever the text that is put in holds, replacing in it later is the same as putting it in
    with its characters replaced. -/
theorem Text.substitute_substitute (s : Text) (c : Char) (t u : Text) :
    (s.substitute c t).substitute c u = s.substitute c (t.substitute c u) := by
  simp only [substitute, List.flatMap_assoc]
  congr 1
  funext x
  split_ifs with hx
  · rfl
  · rw [List.flatMap_singleton, if_neg hx]

namespace Node

mutual

/-- Two templates one after the other are one: the second, with the first in place of its `&`. -/
theorem rescope_rescope (t₁ t₂ : Text) (node : Node) :
    (node.rescope t₁).rescope t₂ = node.rescope (t₂.substitute '&' t₁) := by
  rcases node with d | ⟨selector, nodes⟩ | ⟨name, params, nodes⟩
  · rfl
  · change rule (t₂.substitute '&' (t₁.substitute '&' selector)) nodes
      = rule ((t₂.substitute '&' t₁).substitute '&' selector) nodes
    rw [Text.substitute_substitute]
  · exact congrArg (atRule name params) (rescopeAll_rescopeAll t₁ t₂ nodes)

theorem rescopeAll_rescopeAll (t₁ t₂ : Text) (nodes : List Node) :
    rescopeAll t₂ (rescopeAll t₁ nodes) = rescopeAll (t₂.substitute '&' t₁) nodes := by
  rcases nodes with _ | ⟨node, nodes⟩
  · rfl
  · exact congrArg₂ List.cons (rescope_rescope t₁ t₂ node) (rescopeAll_rescopeAll t₁ t₂ nodes)

end

mutual

theorem declarations_rescope (template : Text) (node : Node) :
    (node.rescope template).declarations = node.declarations := by
  rcases node with d | ⟨selector, nodes⟩ | ⟨name, params, nodes⟩
  · rfl
  · rfl
  · exact declarationsOfAll_rescopeAll template nodes

/-- A template changes no declaration, and not their order. -/
theorem declarationsOfAll_rescopeAll (template : Text) (nodes : List Node) :
    declarationsOfAll (rescopeAll template nodes) = declarationsOfAll nodes := by
  rcases nodes with _ | ⟨node, nodes⟩
  · rfl
  · exact congrArg₂ (· ++ ·) (declarations_rescope template node)
      (declarationsOfAll_rescopeAll template nodes)

end

/-- *Templates compose*: two templates one after the other are one, whatever the selectors hold, and
    a template keeps the declarations. These are what a walk finds, and the only row of declarations
    in document order. -/
theorem rescope_composes (t₁ t₂ : Text) :
    (∀ node : Node, (node.rescope t₁).rescope t₂ = node.rescope (t₂.substitute '&' t₁)) ∧
      ∀ nodes : List Node,
        declarationsOfAll (rescopeAll t₁ nodes) = declarationsOfAll nodes ∧
        walk nodes = declarationsOfAll nodes ∧
        ∀ ds, InDocumentOrder nodes ds ↔ ds = declarationsOfAll nodes :=
  ⟨rescope_rescope t₁ t₂, fun nodes =>
    ⟨declarationsOfAll_rescopeAll t₁ nodes, walk_eq nodes, fun _ => inDocumentOrder_iff⟩⟩

/-- The `&` of a class name is no place for a selector. -/
example : ((rule ".a\\&b" []).rescope "&:hover").rescope ".dark &" = rule ".dark .a\\&b:hover" [] :=
  rfl

end Node

end UtilityCss
