import UtilityCss.Proofs.Compilation.ClosedForm
import UtilityCss.Proofs.Design.Stock
import UtilityCss.Proofs.Session.Transparency

/-!
# One declaration, one piece

A class that gives CSS is printed as one block for each at-rule and, inside them, the block of its
declarations. The stock design is tame, so its declarations fit into that block: read as CSS, the
block falls into the pieces of its declarations. One text may be in more than one piece, and that
is the one in the brackets of the class, as nothing looks for semicolons in it. Put into a call, as
a sign or an alpha does, it is in one piece again.

* `Node.print_insideLayers`: where the block of the declarations stands;
* `Design.pieces_of_stock`: the pieces of that block;
* `Design.pieces_of_block_of_semicolon`: a class that declares once is printed as two
  declarations.
-/

namespace UtilityCss

/-! ## Printing -/

namespace Node

/-- A text inside the blocks of some at-rules, the outermost first. -/
def printInside (layers : List (Text × Text)) (inside : Text) : Text :=
  layers.foldr (fun layer text => atRuleHead layer.1 layer.2 ++ braced text) inside

/-- The content of the block of some declarations. -/
def blockOf (declarations : List Declaration) : Text :=
  Text.join [';'] (declarations.map Declaration.print)

variable (selector : Text) (declarations : List Declaration) (layers : List (Text × Text))

theorem printedDeclarations_map :
    printedDeclarations (declarations.map declaration) = declarations.map Declaration.print := by
  rw [printedDeclarations, List.filterMap_map]
  exact congrFun List.filterMap_eq_map declarations

theorem printNested_map : printNested (declarations.map declaration) = [] := by
  induction declarations with
  | nil => rw [List.map_nil, printNested]
  | cons x declarations ih => rw [List.map_cons, printNested, ih]

theorem print_rule : (rule selector (declarations.map declaration)).print
    = selector ++ braced (blockOf declarations) := by
  rw [print, printedDeclarations_map, printNested_map, List.append_nil, blockOf]

/-- At-rules print their blocks around the one of the rule. -/
theorem print_insideLayers :
    (insideLayers layers (rule selector (declarations.map declaration))).print
      = printInside layers (selector ++ braced (blockOf declarations)) := by
  induction layers with
  | nil => exact print_rule selector declarations
  | cons layer layers ih =>
    -- What an at-rule holds is nested, be it an at-rule again or the rule.
    have hnested (node : Node) (h : ∀ x, node ≠ declaration x) :
        (atRule layer.1 layer.2 [node]).print
          = atRuleHead layer.1 layer.2 ++ braced node.print := by
      cases node with
      | declaration x => exact absurd rfl (h x)
      | rule | atRule => simp [print, printNested, printedDeclarations]
    change (atRule layer.1 layer.2 [insideLayers layers _]).print = _
    rw [hnested, ih]
    · rfl
    · cases layers <;> rintro x ⟨⟩

theorem declarations_insideLayers :
    (insideLayers layers (rule selector (declarations.map declaration))).declarations
      = declarations := by
  induction layers with
  | nil =>
    change declarationsOfAll (declarations.map declaration) = declarations
    rw [declarationsOfAll_eq_flatMap, List.flatMap_map]
    exact List.flatMap_singleton' declarations
  | cons layer layers ih =>
    change (insideLayers layers _).declarations ++ [] = declarations
    rw [ih, List.append_nil]

end Node

/-! ## Declarations that fit -/

variable {c : Candidate}

namespace Assignment

/-- The declaration of an assignment. -/
def declaration (important : Bool) (a : Assignment) : Declaration :=
  ⟨a.property, a.value, important⟩

variable {a : Assignment} (important : Bool)

theorem tame_mark : Tame (if important then "!important".toList else []) := by
  cases important with
  | true => exact .of_isTame (by decide)
  | false => exact tame_nil

theorem Fits.closed_print (h : a.Fits c) : Closed (a.declaration important).print :=
  .append (.append h.property.closed (.plain rfl h.closed)) (tame_mark important).closed

theorem Fits.pieces_print (h : a.Fits c) (hvalue : Nesting.outside.Keeps a.value) :
    (a.declaration important).print.pieces = [(a.declaration important).print] := by
  have hcolon : Nesting.outside.Keeps [':'] := .plain rfl rfl (by decide)
  exact Text.pieces_of_keeps (.append (.append h.property.keeps (hcolon.append hvalue))
    (tame_mark important).keeps)

end Assignment

namespace AllFit

variable {assignments : List Assignment} (h : AllFit c assignments) (important : Bool)
include h

/-- The block of some declarations that fit falls into the pieces of each of them. -/
theorem pieces_blockOf :
    (Node.blockOf (assignments.map (·.declaration important))).pieces
      = (assignments.map (·.declaration important)).flatMap (·.print.pieces) := by
  rw [Node.blockOf, List.map_map, Text.pieces_join, List.flatMap_map, List.flatMap_map]
  · rfl
  · intro s hs
    obtain ⟨a, ha, rfl⟩ := List.mem_map.1 hs
    exact (h.fits a ha).closed_print important
  · exact fun hnil => h.ne_nil (List.map_eq_nil_iff.1 hnil)

/-- Only the text in the brackets of the candidate divides a declaration. -/
theorem pieces_print {x : Declaration} (hx : x ∈ assignments.map (·.declaration important)) :
    x.print.pieces = [x.print] ∨ ∃ type, c.value = some (.arbitrary x.value type) := by
  obtain ⟨a, ha, rfl⟩ := List.mem_map.1 hx
  exact (h.fits a ha).kept.imp_left ((h.fits a ha).pieces_print important)

theorem pieces_print_of_value
    (hvalue : ∀ value type, c.value = some (.arbitrary value type) → value.pieces = [value])
    {x : Declaration} (hx : x ∈ assignments.map (·.declaration important)) :
    x.print.pieces = [x.print] := by
  obtain ⟨a, ha, rfl⟩ := List.mem_map.1 hx
  refine (h.fits a ha).pieces_print important ?_
  rcases (h.fits a ha).kept with hkept | ⟨type, ht⟩
  · exact hkept
  · exact Text.keeps_of_pieces (h.fits a ha).closed (hvalue a.value type ht)

end AllFit

/-- The closed form of a candidate holds the declarations of its assignments. -/
theorem Candidate.exists_closedForm_eq (c : Candidate) (wraps : List Wrap)
    (assignments : List Assignment) : ∃ layers selector, c.closedForm wraps assignments
      = .insideLayers layers
        (.rule selector ((assignments.map (·.declaration c.important)).map .declaration)) := by
  refine ⟨wraps.filterMap Wrap.layer?, throughTemplates (wraps.filterMap Wrap.template?)
    ('.' :: Text.escapeIdentifier c.raw), ?_⟩
  rw [closedForm, wrapped, List.map_map]
  rfl

namespace Design

/-- *One piece for each declaration*: a class that gives CSS in the stock design is printed as the
    block of its declarations inside the blocks of its at-rules. The pieces of this block are
    those of the declarations, one after the other, and each of these is one piece, except for one
    with the text in the brackets of the class as its value. No name, key or modifier, no sign and
    no variant divides a declaration; and no class does whose bracketed value is one piece. -/
theorem pieces_of_stock {d : Design} (hd : stock = .ok d) (before : List Request) {raw : Text}
    {report : CompilationReport}
    (h : d.replyAfter before (.compile raw) = .ok (.compilation report)) (hn : report.nodes ≠ []) :
    ∃ c layers selector, d.candidateOf? raw = some c ∧
      let declarations := Node.declarationsOfAll report.nodes
      let block := Node.blockOf declarations
      declarations ≠ [] ∧
      report.nodes = [.insideLayers layers (.rule selector (declarations.map .declaration))] ∧
      report.css = Node.printInside layers (selector ++ Node.braced block) ∧
      block.pieces = declarations.flatMap (·.print.pieces) ∧
      (∀ x ∈ declarations, x.print.pieces = [x.print] ∨
        ∃ type, c.value = some (.arbitrary x.value type)) ∧
      ((∀ value type, c.value = some (.arbitrary value type) → value.pieces = [value]) →
        block.pieces = declarations.map Declaration.print) := by
  obtain ⟨compilation, hcompilation, rfl⟩ := replyAfter_compile.1 h
  rw [compilationOf] at hcompilation
  split at hcompilation
  · cases hcompilation
    exact absurd rfl hn
  · next c hc =>
    -- There are nodes, so some utility takes the candidate, and every variant has a wrap.
    obtain ⟨⟨⟨source, assignments⟩, hassign⟩, hwraps⟩ :=
      Candidate.compile_nodes_ne_nil.1 ⟨compilation, hcompilation, hn⟩
    obtain ⟨wraps, hwraps⟩ := forall_wrap?_isSome.1 hwraps
    rw [Candidate.compile_of_wraps hassign hwraps] at hcompilation
    cases hcompilation
    have hall := UtilityTable.allFit_assign (isTame_of_stock hd) (Candidate.clean_of_ofText? hc)
      hassign
    obtain ⟨layers, selector, hnode⟩ := c.exists_closedForm_eq wraps assignments
    have hdeclarations : Node.declarationsOfAll [c.closedForm wraps assignments]
        = assignments.map (·.declaration c.important) := by
      rw [hnode, Node.declarationsOfAll, Node.declarations_insideLayers, Node.declarationsOfAll,
        List.append_nil]
    refine ⟨c, layers, selector, hc, ?_⟩
    dsimp only [Compilation.report, Compilation.nodes]
    rw [hdeclarations]
    refine ⟨fun hnil => hall.ne_nil (List.map_eq_nil_iff.1 hnil), by rw [hnode], ?_,
      hall.pieces_blockOf c.important, fun x hx => hall.pieces_print c.important hx,
      fun hvalue => ?_⟩
    · rw [Node.printAll_singleton, hnode, Node.print_insideLayers]
    · rw [hall.pieces_blockOf c.important, List.map_eq_flatMap (f := Declaration.print)]
      exact List.flatMap_congr fun x hx => hall.pieces_print_of_value c.important hvalue hx

/-- A class that declares twice, with a mark and a bracketed value in one piece. -/
theorem pieces_of_stock_of_size :
    let raw : Text := "size-[min(1px,2px)]!"
    let declarations : List Declaration :=
      [⟨"width", "min(1px,2px)", true⟩, ⟨"height", "min(1px,2px)", true⟩]
    ∃ d report, stock = .ok d ∧
      d.replyAfter [.compile "nope"] (.compile raw) = .ok (.compilation report) ∧
      report.nodes = [.rule ".size-\\[min\\(1px\\,2px\\)\\]\\!" (declarations.map .declaration)] ∧
      (Node.blockOf declarations).pieces =
        ["width:min(1px,2px)!important".toList, "height:min(1px,2px)!important".toList] := by
  intro raw declarations
  let d : Design :=
    ⟨.stock, .stock .stock, ⟨VariantTable.stockDefinitions .stock, true⟩, .stock, rfl, rfl⟩
  have hread : d.candidateOf? raw = some
      { raw, kind := .functional, root := "size", value := some (.arbitrary "min(1px,2px)" none),
        modifier := none, variants := [], important := true, negative := false,
        property := none } := by
    subst d raw
    decide +kernel
  have hcompile : (d.compilationOf raw).map Compilation.nodes = .ok
      [.rule ".size-\\[min\\(1px\\,2px\\)\\]\\!" (declarations.map .declaration)] := by
    rw [compilationOf, hread]
    rfl
  have hvalue : Text.pieces "min(1px,2px)" = ["min(1px,2px)".toList] := by decide +kernel
  obtain ⟨compilation, hcompilation, hnodes⟩ := map_eq_ok.1 hcompile
  have hreply : d.replyAfter [.compile "nope"] (.compile raw) = _ :=
    replyAfter_compile.2 ⟨_, hcompilation, rfl⟩
  replace hnodes : (compilation.report d.utilities).nodes
      = [.rule ".size-\\[min\\(1px\\,2px\\)\\]\\!" (declarations.map .declaration)] := hnodes
  obtain ⟨c, layers, selector, hc, -, -, -, -, -, hblock⟩ :=
    pieces_of_stock stock_eq_ok _ hreply (hnodes ▸ List.cons_ne_nil _ _)
  refine ⟨_, _, stock_eq_ok, hreply, hnodes, ?_⟩
  rw [hnodes] at hblock
  refine hblock fun value type heq => ?_
  cases hread.symm.trans hc
  cases heq
  exact hvalue

/-- Nothing looks for a semicolon in the text in brackets: one declaration is printed as two. -/
theorem pieces_of_block_of_semicolon :
    let raw : Text := "[color:red;margin:0]"
    let x : Declaration := ⟨"color", "red;margin:0", false⟩
    ∃ d report, stock = .ok d ∧
      d.replyAfter [] (.compile raw) = .ok (.compilation report) ∧
      report.nodes = [.rule ".\\[color\\:red\\;margin\\:0\\]" [.declaration x]] ∧
      report.css = ".\\[color\\:red\\;margin\\:0\\]\x7bcolor:red;margin:0\x7d".toList ∧
      Node.declarationsOfAll report.nodes = [x] ∧
      (Node.blockOf [x]).pieces = ["color:red".toList, "margin:0".toList] := by
  intro raw x
  let d : Design :=
    ⟨.stock, .stock .stock, ⟨VariantTable.stockDefinitions .stock, true⟩, .stock, rfl, rfl⟩
  have hread : d.candidateOf? raw = some
      { raw, kind := .arbitrary, root := [], value := some (.arbitrary "red;margin:0" none),
        modifier := none, variants := [], important := false, negative := false,
        property := some "color".toList } := by
    subst d raw
    decide +kernel
  have hselector : '.' :: Text.escapeIdentifier raw
      = ".\\[color\\:red\\;margin\\:0\\]".toList := by
    subst raw
    decide +kernel
  have hcompilation : d.compilationOf raw = .ok (.produced
      (.rule ".\\[color\\:red\\;margin\\:0\\]" [.declaration x]) .arbitraryProperty) := by
    rw [compilationOf, hread, ← hselector]
    rfl
  have hcss : Node.printAll
        [.rule ".\\[color\\:red\\;margin\\:0\\]" [.declaration ⟨"color", "red;margin:0", false⟩]]
      = ".\\[color\\:red\\;margin\\:0\\]\x7bcolor:red;margin:0\x7d".toList := by decide +kernel
  have hpieces : (Node.blockOf [⟨"color", "red;margin:0", false⟩]).pieces
      = ["color:red".toList, "margin:0".toList] := by decide +kernel
  exact ⟨_, _, stock_eq_ok, replyAfter_compile.2 ⟨_, hcompilation, rfl⟩, rfl, hcss, rfl, hpieces⟩

end Design

end UtilityCss
