import UtilityCss.Proofs.Variant.BlockFree
import UtilityCss.Stylesheet.Printer

/-!
# Reading blocks back

A reader of CSS goes by three characters. A semicolon ends a declaration, and so does the end of a
block; a brace makes the text in front of it the head of a nested block. If no text of a stylesheet
holds one of these characters, the reader gets on from one printed part to the next, and what it
finds can be told from the nodes (`Node.found`). It is what the nodes hold, but for two things.

* Nothing is printed between the last declaration of a block and the first block nested in it. So
  in a block that holds both, the reader takes this declaration for a part of the head.
* A value may itself end in the mark of importance.

`Node.readBlocks?_printAll`: what is printed is read back exactly if neither occurs.
-/

namespace UtilityCss

/-- A block as a reader finds it: the text in front of its braces, its declarations, and the
    blocks nested in it. -/
inductive Block where
  | mk (head : Text) (declarations : List Declaration) (nested : List Block)

/-! ## The reader -/

namespace Declaration

/-- The mark that an important declaration ends in. -/
def mark : Text := "!important"

/-- The declaration that a text spells: its property ends before the first colon. -/
def ofText (s : Text) : Declaration :=
  let property := s.takeWhile (· ≠ ':')
  let value : Text := (s.dropWhile (· ≠ ':')).tail
  if value.endsWith mark then ⟨property, value.take (value.length - mark.length), true⟩
  else ⟨property, value, false⟩

end Declaration

/-- What was read of a block, or of the whole stylesheet. -/
structure BlockContent where
  declarations : List Declaration
  nested : List Block

/-- A point of the way through a stylesheet: the blocks that stand open, the innermost first, each
    with its head and what the block around it held before; the content of the innermost block; and
    the text since the last declaration or nested block. -/
structure SheetReading where
  outer : List (BlockContent × Text)
  content : BlockContent
  text : Text

namespace SheetReading

/-- The start of a stylesheet. -/
def start : SheetReading := ⟨[], ⟨[], []⟩, []⟩

/-- The point after the end of a declaration. There need not have been one. -/
def endDeclaration (r : SheetReading) : SheetReading :=
  if r.text.isEmpty then r
  else ⟨r.outer, ⟨r.content.declarations ++ [.ofText r.text], r.content.nested⟩, []⟩

/-- The point after the end of the innermost block, if one is open. -/
def endBlock? (r : SheetReading) : Option SheetReading :=
  match r.outer with
  | [] => none
  | (around, head) :: outer =>
    some ⟨outer, ⟨around.declarations, around.nested ++
      [⟨head, r.content.declarations, r.content.nested⟩]⟩, []⟩

/-- The point after one more character. -/
def step? (r : SheetReading) (c : Char) : Option SheetReading :=
  if c = ';' then some r.endDeclaration
  else if c = '\x7b' then some ⟨(r.content, r.text) :: r.outer, ⟨[], []⟩, []⟩
  else if c = '\x7d' then r.endDeclaration.endBlock?
  else some { r with text := r.text ++ [c] }

end SheetReading

/-- What a reader finds in a stylesheet, unless a block stands open at the end or is closed without
    having been opened. -/
def Text.readBlocks? (s : Text) : Option BlockContent :=
  match s.foldlM SheetReading.step? .start with
  | some ⟨[], content, []⟩ => some content
  | _ => none

/-! ## What nodes hold -/

namespace Node

/-- Whether a node is a declaration. -/
def isDeclaration : Node → Bool
  | declaration _ => true
  | _ => false

/-- The declarations among the nodes of a block. -/
def declared (nodes : List Node) : List Declaration :=
  nodes.filterMap fun
    | declaration d => some d
    | _ => none

mutual

/-- The block that a node is, with everything in it. A declaration is none. -/
def blocks : Node → List Block
  | declaration _ => []
  | rule selector nodes => [⟨selector, declared nodes, blocksAmong nodes⟩]
  | atRule name params nodes => [⟨atRuleHead name params, declared nodes, blocksAmong nodes⟩]

/-- The blocks among some nodes. -/
def blocksAmong : List Node → List Block
  | [] => []
  | node :: nodes => blocks node ++ blocksAmong nodes

end

end Node

/-- Whether a text is there, and holds no character that a reader goes by. -/
def Text.isLegal (s : Text) : Bool :=
  !s.isEmpty && s.isBlockFree

/-- Whether a reader can tell the two parts of a declaration and its end. -/
def Declaration.isLegal (d : Declaration) : Bool :=
  d.property.isLegal && !d.property.contains ':' && d.value.isLegal

namespace Node

mutual

/-- Whether no text of a node holds a character that a reader goes by. -/
def isLegal : Node → Bool
  | declaration d => d.isLegal
  | rule selector nodes => selector.isLegal && allLegal nodes
  | atRule name params nodes => name.isLegal && params.isLegal && allLegal nodes

/-- The same of all nodes of a list. -/
def allLegal : List Node → Bool
  | [] => true
  | node :: nodes => isLegal node && allLegal nodes

end

/-- The declarations of a block that a semicolon or the end of the block ends. -/
def ended (nodes : List Node) : List Declaration :=
  if nodes.all isDeclaration then declared nodes else (declared nodes).dropLast

/-- The text that stands in front of the first nested block of a block. -/
def unended (nodes : List Node) : Text :=
  ((declared nodes).getLast?.map Declaration.print).getD []

/-- A declaration as it is read from its print. -/
def reread (d : Declaration) : Declaration :=
  .ofText d.print

mutual

/-- The block that a reader finds in the print of a node, with a text in front of it. -/
def found (front : Text) : Node → List Block
  | declaration _ => []
  | rule selector nodes =>
    [⟨front ++ selector, (ended nodes).map reread, foundAmong (unended nodes) nodes⟩]
  | atRule name params nodes =>
    [⟨front ++ atRuleHead name params, (ended nodes).map reread,
      foundAmong (unended nodes) nodes⟩]

/-- The blocks that a reader finds in the print of some nodes. What is in front belongs to the
    first. -/
def foundAmong (front : Text) : List Node → List Block
  | [] => []
  | node :: nodes =>
    found front node ++ foundAmong (if node.isDeclaration then front else []) nodes

end

end Node

/-- Whether the importance of a declaration can be told from its print. -/
def Declaration.isLegible (d : Declaration) : Bool :=
  d.important || !d.value.endsWith mark

namespace Node

/-- Whether the nodes of a block are either all declarations or all nested blocks. -/
def areAlike (nodes : List Node) : Bool :=
  nodes.all isDeclaration || !nodes.any isDeclaration

mutual

/-- Whether no block of a node holds both declarations and nested blocks, and the importance of
    all declarations can be told. -/
def isReadable : Node → Bool
  | declaration d => d.isLegible
  | rule _ nodes => areAlike nodes && allReadable nodes
  | atRule _ _ nodes => areAlike nodes && allReadable nodes

/-- The same of all nodes of a list. -/
def allReadable : List Node → Bool
  | [] => true
  | node :: nodes => isReadable node && allReadable nodes

end

end Node

/-! ## Reading declarations -/

namespace Declaration

variable {d : Declaration}

theorem print_eq (d : Declaration) :
    d.print = d.property ++ ':' :: (d.value ++ if d.important then mark else []) := by
  rw [print, List.append_assoc]
  rfl

theorem print_ne_nil (d : Declaration) : d.print ≠ [] := by
  simp [print_eq]

/-- The property and the value are found at the first colon. -/
theorem ofText_append {property : Text} (h : ':' ∉ property) (value : Text) :
    ofText (property ++ ':' :: value)
      = if value.endsWith mark then ⟨property, value.take (value.length - mark.length), true⟩
        else ⟨property, value, false⟩ := by
  have hne : ∀ c ∈ property, decide (c ≠ ':') = true := fun c hc =>
    decide_eq_true fun heq => h (heq ▸ hc)
  have htake : (property ++ ':' :: value).takeWhile (· ≠ ':') = property := by
    rw [List.takeWhile_append_of_pos hne, List.takeWhile_cons_of_neg (by simp), List.append_nil]
  have hdrop : ((property ++ ':' :: value).dropWhile (· ≠ ':')).tail = value := by
    rw [List.dropWhile_append_of_pos hne, List.dropWhile_cons_of_neg (by simp), List.tail_cons]
  rw [ofText, htake, hdrop]

theorem endsWith_append (s last : Text) : (s ++ last).endsWith last = true := by
  rw [Text.endsWith, List.isSuffixOf_iff_suffix]
  exact List.suffix_append s last

/-- A declaration is read back from its print exactly if its importance can be told. -/
theorem ofText_print (hd : d.isLegal = true) : ofText d.print = d ↔ d.isLegible = true := by
  simp only [isLegal, Bool.and_eq_true, Bool.not_eq_true', List.contains_eq_mem,
    decide_eq_false_iff_not] at hd
  obtain ⟨property, value, important⟩ := d
  rw [print_eq, ofText_append hd.1.2]
  cases important with
  | true => simp [isLegible, endsWith_append]
  | false => cases h : value.endsWith mark <;> simp [isLegible, h]

/-- The print of a legal declaration holds no character that a reader goes by. -/
theorem isBlockFree_print (hd : d.isLegal = true) : d.print.isBlockFree = true := by
  simp only [isLegal, Text.isLegal, Bool.and_eq_true] at hd
  obtain ⟨property, value, important⟩ := d
  have hmark : Text.isBlockFree (if important then mark else []) = true := by
    cases important <;> decide
  simp [print_eq, hd.1.1.2, hd.2.2, hmark, isBlockChar]

end Declaration

namespace SheetReading

/-- A reader gets over a text, from one point to another. -/
def Reads (r : SheetReading) (s : Text) (r' : SheetReading) : Prop :=
  s.foldlM step? r = some r'

variable {r r' r'' : SheetReading} {s t : Text}

theorem Reads.append (hs : r.Reads s r') (ht : r'.Reads t r'') : r.Reads (s ++ t) r'' := by
  rw [Reads, List.foldlM_append, hs, Option.bind_eq_bind, Option.bind_some]
  exact ht

theorem Reads.char {c : Char} (h : r.step? c = some r') : r.Reads [c] r' := by
  rw [Reads, List.foldlM_cons, h]
  rfl

theorem step?_of_not_isBlockChar {c : Char} (hc : isBlockChar c = false) (r : SheetReading) :
    r.step? c = some { r with text := r.text ++ [c] } := by
  simp only [isBlockChar, List.contains_eq_mem, List.mem_cons, List.not_mem_nil, or_false,
    decide_eq_false_iff_not, not_or] at hc
  rw [step?, if_neg hc.2.2, if_neg hc.1, if_neg hc.2.1]

/-- A text without the characters that a reader goes by is put to the text so far. -/
theorem reads_blockFree (hs : s.isBlockFree = true) (r : SheetReading) :
    r.Reads s { r with text := r.text ++ s } := by
  induction s generalizing r with
  | nil => simp [Reads]
  | cons c s ih =>
    simp only [Text.isBlockFree_cons, Bool.and_eq_true, Bool.not_eq_true'] at hs
    have hread := (Reads.char (step?_of_not_isBlockChar hs.1 r)).append (ih hs.2 _)
    simpa using hread

theorem reads_semicolon (h : r.text ≠ []) : r.Reads [';']
    ⟨r.outer, ⟨r.content.declarations ++ [.ofText r.text], r.content.nested⟩, []⟩ := by
  refine .char ?_
  rw [step?, if_pos rfl, endDeclaration, if_neg (by simpa using h)]

theorem reads_open (r : SheetReading) :
    r.Reads ['\x7b'] ⟨(r.content, r.text) :: r.outer, ⟨[], []⟩, []⟩ := by
  refine .char ?_
  rw [step?, if_neg (by decide), if_pos rfl]

theorem reads_close {around : BlockContent} {head : Text} {outer : List (BlockContent × Text)}
    {content : BlockContent} (h : r.endDeclaration = ⟨(around, head) :: outer, content, []⟩) :
    r.Reads ['\x7d'] ⟨outer, ⟨around.declarations, around.nested ++
      [⟨head, content.declarations, content.nested⟩]⟩, []⟩ := by
  refine .char ?_
  rw [step?, if_neg (by decide), if_neg (by decide), if_pos rfl, h]
  rfl

/-- Of declarations with semicolons between, the reader has found all but the last. -/
theorem reads_declarations {ds : List Declaration} (hds : ∀ d ∈ ds, d.isLegal = true)
    (hr : r.text = []) :
    r.Reads (Text.join [';'] (ds.map Declaration.print))
      ⟨r.outer, ⟨r.content.declarations ++ ds.dropLast.map Node.reread, r.content.nested⟩,
        (ds.getLast?.map Declaration.print).getD []⟩ := by
  induction ds generalizing r with
  | nil =>
    obtain ⟨outer, content, text⟩ := r
    cases hr
    simp [Reads]
  | cons d ds ih =>
    obtain ⟨hd, hds⟩ := List.forall_mem_cons.1 hds
    have hprint := reads_blockFree (Declaration.isBlockFree_print hd) r
    rw [hr, List.nil_append] at hprint
    cases ds with
    | nil => simpa using hprint
    | cons d' ds =>
      -- The semicolon behind a declaration ends it, and the text starts again.
      have hsemicolon : (SheetReading.mk r.outer r.content d.print).Reads [';']
          ⟨r.outer, ⟨r.content.declarations ++ [Node.reread d], r.content.nested⟩, []⟩ :=
        reads_semicolon (Declaration.print_ne_nil d)
      have hrest := (hprint.append hsemicolon).append (ih hds rfl)
      simpa [Text.join_cons_cons] using hrest

end SheetReading

/-! ## Reading blocks -/

namespace Node

theorem printedDeclarations_eq (nodes : List Node) :
    printedDeclarations nodes = (declared nodes).map Declaration.print := by
  rw [printedDeclarations, declared, List.map_filterMap]
  refine List.filterMap_congr fun node _ => ?_
  cases node <;> rfl

theorem mem_declared {nodes : List Node} {d : Declaration} :
    d ∈ declared nodes ↔ declaration d ∈ nodes := by
  rw [declared, List.mem_filterMap]
  constructor
  · rintro ⟨node, hnode, h⟩
    cases node with
    | declaration d' =>
      cases h
      exact hnode
    | rule | atRule => cases h
  · exact fun h => ⟨_, h, rfl⟩

theorem allLegal_iff {nodes : List Node} :
    allLegal nodes = true ↔ ∀ node ∈ nodes, node.isLegal = true := by
  induction nodes with
  | nil => simp [allLegal]
  | cons node nodes ih => simp [allLegal, ih]

theorem isLegal_of_mem_declared {nodes : List Node} (h : allLegal nodes = true) {d : Declaration}
    (hd : d ∈ declared nodes) : d.isLegal = true := by
  have := allLegal_iff.1 h _ (mem_declared.1 hd)
  rwa [isLegal] at this

/-- The end of a block ends its last declaration, unless nested blocks came in between. -/
theorem endDeclaration_declared (nodes : List Node) (outer : List (BlockContent × Text))
    (nested : List Block) :
    (SheetReading.endDeclaration ⟨outer, ⟨(declared nodes).dropLast.map reread, nested⟩,
      if nodes.all isDeclaration then unended nodes else []⟩)
      = ⟨outer, ⟨(ended nodes).map reread, nested⟩, []⟩ := by
  by_cases hall : nodes.all isDeclaration = true
  · rw [if_pos hall, ended, if_pos hall, unended, SheetReading.endDeclaration]
    rcases List.eq_nil_or_concat (declared nodes) with h | ⟨ds, d, h⟩
    · rw [h]
      rfl
    · rw [h]
      simp [reread, Declaration.print_ne_nil]
  · rw [if_neg hall, ended, if_neg hall]
    rfl

/-- A reader that gets over the blocks nested in a block gets over the block. -/
theorem reads_braced {nodes : List Node} (hlegal : allLegal nodes = true)
    (hnested : ∀ r : SheetReading, r.Reads (printNested nodes)
      ⟨r.outer, ⟨r.content.declarations, r.content.nested ++ foundAmong r.text nodes⟩,
        if nodes.all isDeclaration then r.text else []⟩)
    {head : Text} (hhead : head.isBlockFree = true) (r : SheetReading) :
    r.Reads (head ++ braced (Text.join [';'] (printedDeclarations nodes) ++ printNested nodes))
      ⟨r.outer, ⟨r.content.declarations, r.content.nested ++
        [⟨r.text ++ head, (ended nodes).map reread, foundAmong (unended nodes) nodes⟩]⟩, []⟩ := by
  have hopen := (SheetReading.reads_blockFree hhead r).append (SheetReading.reads_open _)
  have hdeclarations := SheetReading.reads_declarations
    (r := ⟨(r.content, r.text ++ head) :: r.outer, ⟨[], []⟩, []⟩)
    (fun d hd => isLegal_of_mem_declared hlegal hd) rfl
  have hinside := hdeclarations.append (hnested _)
  have hclose := SheetReading.reads_close (endDeclaration_declared nodes
    ((r.content, r.text ++ head) :: r.outer) (foundAmong (unended nodes) nodes))
  have hall := (hopen.append hinside).append hclose
  rw [printedDeclarations_eq, braced]
  simpa using hall

mutual

/-- A reader finds in a printed node what is told of it. -/
theorem reads_print {node : Node} (hnode : node.isDeclaration = false)
    (hlegal : node.isLegal = true) (r : SheetReading) : r.Reads node.print
      ⟨r.outer, ⟨r.content.declarations, r.content.nested ++ found r.text node⟩, []⟩ := by
  cases node with
  | declaration d => cases hnode
  | rule selector nodes =>
    rw [isLegal, Bool.and_eq_true, Text.isLegal, Bool.and_eq_true] at hlegal
    rw [print, found]
    exact reads_braced hlegal.2 (reads_printNested hlegal.2) hlegal.1.2 r
  | atRule name params nodes =>
    simp only [isLegal, Text.isLegal, Bool.and_eq_true] at hlegal
    obtain ⟨⟨⟨_, hname⟩, _, hparams⟩, hnodes⟩ := hlegal
    have hhead : (atRuleHead name params).isBlockFree = true := by
      rw [atRuleHead]
      split <;> simp [hname, hparams, isBlockChar]
    rw [print, found]
    exact reads_braced hnodes (reads_printNested hnodes) hhead r

/-- A reader finds in the printed blocks among some nodes what is told of them. -/
theorem reads_printNested {nodes : List Node} (hlegal : allLegal nodes = true)
    (r : SheetReading) : r.Reads (printNested nodes)
      ⟨r.outer, ⟨r.content.declarations, r.content.nested ++ foundAmong r.text nodes⟩,
        if nodes.all isDeclaration then r.text else []⟩ := by
  cases nodes with
  | nil => simp [printNested, foundAmong, SheetReading.Reads]
  | cons node nodes =>
    rw [allLegal, Bool.and_eq_true] at hlegal
    cases node with
    | declaration d =>
      have hrest := reads_printNested hlegal.2 r
      rw [printNested]
      simpa [foundAmong, found, isDeclaration] using hrest
    | rule | atRule =>
      have hrest := (reads_print rfl hlegal.1 r).append (reads_printNested hlegal.2 _)
      rw [printNested]
      simpa [foundAmong, isDeclaration] using hrest

end

/-! ## What is read back -/

theorem allReadable_iff {nodes : List Node} :
    allReadable nodes = true ↔ ∀ node ∈ nodes, node.isReadable = true := by
  induction nodes with
  | nil => simp [allReadable]
  | cons node nodes ih => simp [allReadable, ih]

theorem declared_eq_nil {nodes : List Node} :
    declared nodes = [] ↔ nodes.any isDeclaration = false := by
  rw [List.eq_nil_iff_forall_not_mem, List.any_eq_false]
  constructor
  · intro h node hnode
    cases node with
    | declaration d => exact absurd (mem_declared.2 hnode) (h d)
    | rule | atRule => simp [isDeclaration]
  · intro h d hd
    exact h _ (mem_declared.1 hd) rfl

theorem unended_eq_nil {nodes : List Node} : unended nodes = [] ↔ declared nodes = [] := by
  rw [unended]
  rcases List.eq_nil_or_concat (declared nodes) with h | ⟨ds, d, h⟩ <;>
    simp [h, Declaration.print_ne_nil]

/-- A block gives its declarations back if it holds nothing else, or none of them. -/
theorem map_reread_ended {nodes : List Node} (hlegal : allLegal nodes = true) :
    (ended nodes).map reread = declared nodes ↔
      areAlike nodes = true ∧ ∀ d ∈ declared nodes, d.isLegible = true := by
  have hreread : (declared nodes).map reread = declared nodes ↔
      ∀ d ∈ declared nodes, d.isLegible = true := by
    rw [← List.map_id (declared nodes), List.map_map, List.map_inj_left, List.map_id]
    exact forall₂_congr fun d hd => Declaration.ofText_print (isLegal_of_mem_declared hlegal hd)
  rw [ended, areAlike]
  by_cases hall : nodes.all isDeclaration = true
  · rw [if_pos hall, hall, hreread, Bool.true_or]
    exact (and_iff_right rfl).symm
  · rw [if_neg hall, eq_false_of_ne_true hall, Bool.false_or, Bool.not_eq_true', ← declared_eq_nil]
    constructor
    · -- One declaration is missing, unless there is none.
      intro h
      have hlength := congrArg List.length h
      rw [List.length_map, List.length_dropLast] at hlength
      have hnil : declared nodes = [] := List.length_eq_zero_iff.1 (by omega)
      exact ⟨hnil, by simp [hnil]⟩
    · rintro ⟨hnil, _⟩
      rw [hnil]
      rfl

/-- If the blocks nested in a block are told apart, the whole block is. -/
theorem inside_eq_iff {nodes : List Node} (hlegal : allLegal nodes = true)
    (hnested : foundAmong (unended nodes) nodes = blocksAmong nodes ↔
      (unended nodes = [] ∨ nodes.all isDeclaration = true) ∧
        ∀ node ∈ nodes, node.isDeclaration = false → node.isReadable = true) :
    ((ended nodes).map reread = declared nodes ∧
        foundAmong (unended nodes) nodes = blocksAmong nodes) ↔
      (areAlike nodes && allReadable nodes) = true := by
  have halike : areAlike nodes = true ↔ unended nodes = [] ∨ nodes.all isDeclaration = true := by
    rw [unended_eq_nil, declared_eq_nil, areAlike, Bool.or_eq_true, Bool.not_eq_true', or_comm]
  have hreadable : allReadable nodes = true ↔ (∀ d ∈ declared nodes, d.isLegible = true) ∧
      ∀ node ∈ nodes, node.isDeclaration = false → node.isReadable = true := by
    rw [allReadable_iff]
    constructor
    · refine fun h => ⟨fun d hd => ?_, fun node hnode _ => h node hnode⟩
      have := h _ (mem_declared.1 hd)
      rwa [isReadable] at this
    · rintro ⟨hdeclared, hblocks⟩ node hnode
      cases node with
      | declaration d =>
        rw [isReadable]
        exact hdeclared d (mem_declared.2 hnode)
      | rule | atRule => exact hblocks _ hnode rfl
  rw [map_reread_ended hlegal, hnested, Bool.and_eq_true, hreadable, ← halike]
  exact ⟨fun ⟨⟨h, hd⟩, _, hb⟩ => ⟨h, hd, hb⟩, fun ⟨h, hd, hb⟩ => ⟨⟨h, hd⟩, h, hb⟩⟩

mutual

theorem found_eq_blocks {front : Text} {node : Node} (hnode : node.isDeclaration = false)
    (hlegal : node.isLegal = true) :
    found front node = blocks node ↔ front = [] ∧ node.isReadable = true := by
  cases node with
  | declaration d => cases hnode
  | rule selector nodes =>
    rw [isLegal, Bool.and_eq_true] at hlegal
    have hinside := inside_eq_iff hlegal.2 (foundAmong_eq_blocksAmong hlegal.2)
    simp [found, blocks, isReadable, ← hinside]
  | atRule name params nodes =>
    rw [isLegal, Bool.and_eq_true] at hlegal
    have hinside := inside_eq_iff hlegal.2 (foundAmong_eq_blocksAmong hlegal.2)
    simp [found, blocks, isReadable, ← hinside]

theorem foundAmong_eq_blocksAmong {front : Text} {nodes : List Node}
    (hlegal : allLegal nodes = true) : foundAmong front nodes = blocksAmong nodes ↔
      (front = [] ∨ nodes.all isDeclaration = true) ∧
        ∀ node ∈ nodes, node.isDeclaration = false → node.isReadable = true := by
  cases nodes with
  | nil => simp [foundAmong, blocksAmong]
  | cons node nodes =>
    rw [allLegal, Bool.and_eq_true] at hlegal
    have hrest := fun front => @foundAmong_eq_blocksAmong front nodes hlegal.2
    cases node with
    | declaration d =>
      simp [foundAmong, found, blocksAmong, blocks, isDeclaration, hrest]
    | rule | atRule =>
      -- Only the first nested block has the unended declaration in its head.
      have hfirst := @found_eq_blocks front _ rfl hlegal.1
      have hsplit : ∀ {first first' : Block} {rest rest' : List Block},
          [first] ++ rest = [first'] ++ rest' ↔ [first] = [first'] ∧ rest = rest' := by
        simp
      rw [foundAmong, blocksAmong, found, blocks, hsplit, hrest]
      rw [found, blocks] at hfirst
      simp [hfirst, isDeclaration, and_assoc]

end

theorem printAll_eq_printNested {nodes : List Node} (h : nodes.any isDeclaration = false) :
    printAll nodes = printNested nodes := by
  induction nodes with
  | nil => rw [printAll, List.flatMap_nil, printNested]
  | cons node nodes ih =>
    rw [List.any_cons, Bool.or_eq_false_iff] at h
    cases node with
    | declaration d => cases h.1
    | rule | atRule => rw [printAll, List.flatMap_cons, ← printAll, ih h.2, printNested]

/-- What is printed of nested blocks, with no character in their texts that a reader goes by, is
    read to the end. It is read as what it was, exactly if no block holds both declarations and
    nested blocks, and no value ends in the mark of importance where there is none. -/
theorem readBlocks?_printAll {nodes : List Node} (hblocks : nodes.any isDeclaration = false)
    (hlegal : allLegal nodes = true) :
    (printAll nodes).readBlocks? = some ⟨[], foundAmong [] nodes⟩ ∧
      ((printAll nodes).readBlocks? = some ⟨[], blocksAmong nodes⟩ ↔ allReadable nodes = true) := by
  have hread : (printAll nodes).readBlocks? = some ⟨[], foundAmong [] nodes⟩ := by
    have h := reads_printNested hlegal .start
    rw [SheetReading.Reads] at h
    rw [Text.readBlocks?, printAll_eq_printNested hblocks, h]
    simp [SheetReading.start]
  refine ⟨hread, ?_⟩
  have hall : allReadable nodes = true ↔
      ∀ node ∈ nodes, node.isDeclaration = false → node.isReadable = true := by
    rw [allReadable_iff]
    exact forall₂_congr fun node hnode =>
      ⟨fun h _ => h, fun h => h (eq_false_of_ne_true (List.any_eq_false.1 hblocks node hnode))⟩
  rw [hread, Option.some_inj, BlockContent.mk.injEq, foundAmong_eq_blocksAmong hlegal, hall]
  simp

/-- A media query with two rules in it, one of them important, is read back. -/
theorem readBlocks?_printAll_media :
    let rules := [rule ".a" [declaration ⟨"color", "red", true⟩, declaration ⟨"margin", "0", false⟩],
      rule ".b" [declaration ⟨"content", "'x'", false⟩]]
    (printAll [atRule "@media" "print" rules]).readBlocks? =
      some ⟨[], [⟨"@media print", [], [⟨".a", [⟨"color", "red", true⟩, ⟨"margin", "0", false⟩], []⟩,
        ⟨".b", [⟨"content", "'x'", false⟩], []⟩]⟩]⟩ :=
  (readBlocks?_printAll (by decide) (by decide)).2.2 (by decide)

/-- A rule that holds a declaration and a rule is not read back: the declaration is taken for a
    part of the nested head. -/
theorem readBlocks?_printAll_mixed :
    let nodes := [rule ".a" [declaration ⟨"color", "red", false⟩,
      rule ".b" [declaration ⟨"margin", "0", false⟩]]]
    nodes.any isDeclaration = false ∧ allLegal nodes = true ∧
      (printAll nodes).readBlocks? = some ⟨[], [⟨".a", [],
        [⟨"color:red.b", [⟨"margin", "0", false⟩], []⟩]⟩]⟩ ∧
      (printAll nodes).readBlocks? ≠ some ⟨[], blocksAmong nodes⟩ := by
  intro nodes
  have hread : (printAll nodes).readBlocks? = some ⟨[], [⟨".a", [],
      [⟨"color:red.b", [⟨"margin", "0", false⟩], []⟩]⟩]⟩ := by rfl
  refine ⟨by rfl, by rfl, hread, ?_⟩
  rw [hread]
  simp [nodes, blocksAmong, blocks, declared]

end Node

end UtilityCss
