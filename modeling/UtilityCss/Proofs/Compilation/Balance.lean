import UtilityCss.Proofs.Compilation.Blocks
import UtilityCss.Proofs.Variant.Soundness

/-!
# What a class prints is closed

No class reaches out of its own rule. Every text that goes into the node of a class is closed, and
every step of compiling and printing keeps texts closed, so the CSS of the class is closed, and a
bracketed value could have it for its content. The selector of the class itself stands in the
selector of the rule, outside of quotes, and the quoted parts of bracketed selectors and arguments
stand there unchanged, or in the condition of an at-rule.

All this is so unless a placeholder is shielded in some brackets. Substitution does not look for
quotes or backslashes: the selector is put into a quoted part as well, and the part is not the same
any more.

* `throughTemplates_closed`, `exists_throughTemplates_eq`, `quotedParts_subset_throughTemplates`:
  what templates make of a selector;
* `Design.css_decodes_of_stock`: the CSS of a class is closed;
* `Design.selector_of_stock`: where the selector of the class and the quoted parts are;
* `Design.selector_of_shielded`: a quoted part with a placeholder changes.
-/

namespace UtilityCss

/-- Whether a text falls into tokens: no quote is open at its end, and no backslash is left without
    a character to take along. -/
def Text.isWhole (s : Text) : Bool :=
  (Token.tokenize s).2.isEmpty

theorem Text.Gives.isWhole {s : Text} {ts : List Token} (h : s.Gives ts) : s.isWhole = true := by
  have hscan := congrArg Prod.snd h.scan_eq
  rw [scan] at hscan
  rw [Text.isWhole, hscan]
  rfl

/-! ## Templates -/

section Templates

variable {templates : List Text} {s : Text}

theorem throughTemplates_closed (h : ∀ t ∈ templates, Fillable t) (hs : Closed s) :
    Closed (throughTemplates templates s) := by
  induction templates with
  | nil => exact hs
  | cons t templates ih =>
    obtain ⟨ht, h⟩ := List.forall_mem_cons.1 h
    exact ht.closed_substitute (ih h)

/-- The selector that goes through the templates stands where the first placeholders stood. -/
theorem exists_throughTemplates_eq (h : ∀ t ∈ templates, Fillable t)
    (hmem : ∀ t ∈ templates, '&' ∈ t) :
    ∃ before after, throughTemplates templates s = before ++ s ++ after ∧
      ∃ ts, before.Gives ts := by
  induction templates with
  | nil => exact ⟨[], [], (List.append_nil s).symm, [], .nil⟩
  | cons t templates ih =>
    obtain ⟨ht, h⟩ := List.forall_mem_cons.1 h
    obtain ⟨htmem, hmem⟩ := List.forall_mem_cons.1 hmem
    obtain ⟨before, after, hinner, us, hgives⟩ := ih h hmem
    obtain ⟨left, right, rfl, hleft, ts, hgives'⟩ := ht.exists_before htmem
    have hfilled : throughTemplates ((left ++ '&' :: right) :: templates) s = left ++
        (throughTemplates templates s
          ++ Text.substitute right '&' (throughTemplates templates s)) := by
      change Text.substitute (left ++ '&' :: right) '&' (throughTemplates templates s) = _
      rw [Text.substitute_append, Text.substitute_of_not_mem hleft, Text.substitute_cons,
        if_pos rfl]
    refine ⟨left ++ before, after ++ Text.substitute right '&' (throughTemplates templates s), ?_,
      _, hgives'.append hgives⟩
    rw [hfilled, hinner]
    simp

/-- The quoted parts of all templates are in the selector that went through them. -/
theorem quotedParts_subset_throughTemplates (h : ∀ t ∈ templates, Fillable t)
    (hmem : ∀ t ∈ templates, '&' ∈ t) (hs : Closed s) {t : Text} (ht : t ∈ templates) :
    t.quotedParts ⊆ (throughTemplates templates s).quotedParts := by
  induction templates with
  | nil => cases ht
  | cons t' templates ih =>
    obtain ⟨ht', h⟩ := List.forall_mem_cons.1 h
    obtain ⟨hmem', hmem⟩ := List.forall_mem_cons.1 hmem
    have hinner := throughTemplates_closed h hs
    rcases List.mem_cons.1 ht with rfl | ht
    · exact ht'.quotedParts_subset_substitute hinner
    · exact List.Subset.trans (ih h hmem ht) (ht'.subset_quotedParts_substitute hmem' hinner)

end Templates

/-! ## Printing -/

theorem closed_braced {inside : Text} (h : Closed inside) : Closed (Node.braced inside) :=
  h.enclose .curly

theorem closed_printInside {layers : List (Text × Text)}
    (hlayers : ∀ layer ∈ layers, Closed layer.1 ∧ Closed layer.2) {inside : Text}
    (hinside : Closed inside) : Closed (Node.printInside layers inside) := by
  induction layers with
  | nil => exact hinside
  | cons layer layers ih =>
    obtain ⟨⟨hname, hparams⟩, hlayers⟩ := List.forall_mem_cons.1 hlayers
    refine .append ?_ (closed_braced (ih hlayers))
    rw [Node.atRuleHead]
    split
    · exact hname
    · exact hname.append (.plain rfl hparams)

theorem AllFit.closed_blockOf {c : Candidate} {assignments : List Assignment}
    (h : AllFit c assignments) (important : Bool) :
    Closed (Node.blockOf (assignments.map (·.declaration important))) := by
  have hprint : ∀ a ∈ assignments, Closed (a.declaration important).print := fun a ha =>
    (h.fits a ha).closed_print important
  have hsemicolon : Closed [';'] := .plain rfl .nil
  rw [Node.blockOf, List.map_map]
  clear h
  induction assignments with
  | nil => exact .nil
  | cons a assignments ih =>
    obtain ⟨ha, hprint⟩ := List.forall_mem_cons.1 hprint
    cases assignments with
    | nil => simpa using ha
    | cons b assignments =>
      have hrest := ih hprint
      rw [List.map_cons] at hrest ⊢
      rw [List.map_cons, Text.join_cons_cons]
      exact (ha.append hsemicolon).append hrest

/-! ## Classes -/

/-- Whether a placeholder is shielded in the brackets of some variant of a candidate. -/
def Candidate.shieldsPlaceholder (c : Candidate) : Bool :=
  c.variants.any fun v => v.leaf.enclosed?.any Text.shieldsPlaceholder

/-- The wraps of the variants of a class are sound, with the quoted parts of the brackets. -/
theorem Design.carries_of_candidateOf? {d : Design} (hd : d.variants.IsTame) {raw : Text}
    {c : Candidate} (hc : d.candidateOf? raw = some c) (hshield : c.shieldsPlaceholder = false)
    {v : Variant} (hv : v ∈ c.variants) {w : Wrap} (hw : v.wrap? d.variants = some w) :
    w.Carries v.leaf.quotedParts := by
  obtain ⟨hraw, hblank, _, segments, base, place, hspelled⟩ := Candidate.ofText?_spelledBy hc
  have hmem : some v ∈ segments.map _ := hspelled.variants ▸ List.mem_map_of_mem hv
  obtain ⟨segment, hsegment, hread⟩ := List.mem_map.1 hmem
  refine Variant.carries_of_wrap? hd (Variant.isClean_of_ofText? hread (fun x hx => ?_) ?_) hw
  · have hx := segment_subset_markedClass hsegment base place hx
    rw [← hspelled.raw, hraw] at hx
    exact eq_false_of_ne_true (List.any_eq_false.1 hblank x hx)
  · intro text htext
    have hnot := List.any_eq_false.1 hshield v hv
    rw [htext] at hnot
    exact eq_false_of_ne_true hnot

theorem Variant.mem_wraps {table : VariantTable} {variants : List Variant} {wraps : List Wrap}
    (h : variants.map (Variant.wrap? table) = wraps.map some) :
    (∀ w ∈ wraps, ∃ v ∈ variants, v.wrap? table = some w) ∧
      ∀ v ∈ variants, ∃ w ∈ wraps, v.wrap? table = some w := by
  constructor
  · intro w hw
    have hmem : some w ∈ variants.map (Variant.wrap? table) := h ▸ List.mem_map_of_mem hw
    exact List.mem_map.1 hmem
  · intro v hv
    have hmem : v.wrap? table ∈ wraps.map some := h ▸ List.mem_map_of_mem hv
    obtain ⟨w, hw, heq⟩ := List.mem_map.1 hmem
    exact ⟨w, hw, heq.symm⟩

/-- The templates of sound wraps can be filled, and their at-rules are closed. -/
theorem Wrap.fillable_of_carries {wraps : List Wrap} (h : ∀ w ∈ wraps, ∃ quoted, w.Carries quoted) :
    (∀ t ∈ wraps.filterMap Wrap.template?, Fillable t ∧ '&' ∈ t) ∧
      ∀ layer ∈ wraps.filterMap Wrap.layer?, Closed layer.1 ∧ Closed layer.2 := by
  constructor
  · intro t ht
    obtain ⟨w, hw, hwt⟩ := List.mem_filterMap.1 ht
    obtain ⟨quoted, hcarries⟩ := h w hw
    cases hcarries with
    | selector hfillable hmem =>
      cases hwt
      exact ⟨hfillable, hmem⟩
    | atRule => cases hwt
  · intro layer hlayer
    obtain ⟨w, hw, hwl⟩ := List.mem_filterMap.1 hlayer
    obtain ⟨quoted, hcarries⟩ := h w hw
    cases hcarries with
    | selector => cases hwl
    | atRule hname hparams =>
      cases hwl
      exact ⟨hname, hparams⟩

namespace Design

/-- The node of a class that gives CSS in the stock design. -/
theorem exists_closedForm_of_stock {d : Design} (hd : stock = .ok d) (before : List Request)
    {raw : Text} {report : CompilationReport}
    (h : d.replyAfter before (.compile raw) = .ok (.compilation report)) (hn : report.nodes ≠ []) :
    ∃ c wraps assignments, d.candidateOf? raw = some c ∧ c.raw = raw ∧ raw.hasBlank = false ∧
      c.variants.map (Variant.wrap? d.variants) = wraps.map some ∧ AllFit c assignments ∧
      report.nodes = [c.closedForm wraps assignments] ∧
      report.css = (c.closedForm wraps assignments).print := by
  obtain ⟨compilation, hcompilation, rfl⟩ := replyAfter_compile.1 h
  rw [compilationOf] at hcompilation
  split at hcompilation
  · cases hcompilation
    exact absurd rfl hn
  · next c hc =>
    obtain ⟨⟨⟨source, assignments⟩, hassign⟩, hwraps⟩ :=
      Candidate.compile_nodes_ne_nil.1 ⟨compilation, hcompilation, hn⟩
    obtain ⟨wraps, hwraps⟩ := forall_wrap?_isSome.1 hwraps
    rw [Candidate.compile_of_wraps hassign hwraps] at hcompilation
    cases hcompilation
    obtain ⟨hraw, hblank, _⟩ := Candidate.ofText?_spelledBy hc
    have hall := UtilityTable.allFit_assign (isTame_of_stock hd) (Candidate.clean_of_ofText? hc)
      hassign
    exact ⟨c, wraps, assignments, hc, hraw, hblank, hwraps, hall, rfl, Node.printAll_singleton _⟩

theorem isTame_variants_of_stock {d : Design} (hd : stock = .ok d) : d.variants.IsTame := by
  rw [stock_eq_ok] at hd
  rw [← Except.ok.inj hd]
  exact VariantTable.isTame_of_stock Theme.isTame_stock VariantTable.stock_eq_ok

/-- The selector of a class is closed, as it has no blanks. -/
theorem closed_classSelector {raw : Text} (h : raw.hasBlank = false) :
    Closed ('.' :: Text.escapeIdentifier raw) := by
  refine .plain rfl (closed_escapeIdentifier fun hmem => ?_)
  exact List.any_eq_false.1 h ' ' hmem rfl

variable {d : Design} {raw : Text} {report : CompilationReport}

/-- *The CSS of a class is closed*: in the stock design, the CSS of every class could be the
    content of a bracketed value. All its groups and quotes close, in order, and no backslash is
    left without a character. It is assumed that no placeholder is shielded in the brackets of a
    variant. -/
theorem css_decodes_of_stock (hd : stock = .ok d) (before : List Request)
    (h : d.replyAfter before (.compile raw) = .ok (.compilation report)) (hn : report.nodes ≠ [])
    (hshield : ∀ c, d.candidateOf? raw = some c → c.shieldsPlaceholder = false) :
    ∃ value, report.css.decode = .ok value := by
  obtain ⟨c, wraps, assignments, hc, hraw, hblank, hwraps, hall, _, hcss⟩ :=
    exists_closedForm_of_stock hd before h hn
  have hcarries : ∀ w ∈ wraps, ∃ quoted, w.Carries quoted := fun w hw => by
    obtain ⟨v, hv, hvw⟩ := (Variant.mem_wraps hwraps).1 w hw
    exact ⟨_, carries_of_candidateOf? (isTame_variants_of_stock hd) hc (hshield c hc) hv hvw⟩
  have hsound := Wrap.fillable_of_carries hcarries
  have hselector := throughTemplates_closed (fun t ht => (hsound.1 t ht).1)
    (closed_classSelector hblank)
  -- The at-rules stand around the rule, the templates inside its selector.
  have hprint : (c.closedForm wraps assignments).print = Node.printInside
      (wraps.filterMap Wrap.layer?) (throughTemplates (wraps.filterMap Wrap.template?)
        ('.' :: Text.escapeIdentifier c.raw)
        ++ Node.braced (Node.blockOf (assignments.map (·.declaration c.important)))) := by
    rw [← Node.print_insideLayers, List.map_map]
    rfl
  rw [hcss, hprint, hraw]
  exact (closed_printInside hsound.2
    (hselector.append (closed_braced (hall.closed_blockOf c.important)))).exists_decode

/-- *The class keeps its own selector*: in the stock design, a class that gives CSS becomes one
    rule inside at-rules. The selector of the class stands in the selector of the rule, outside
    of quotes, and the quoted parts of the brackets of all variants stand in the selector or in the
    condition of an at-rule. It is assumed that no placeholder is shielded in these brackets. -/
theorem selector_of_stock (hd : stock = .ok d) (before : List Request)
    (h : d.replyAfter before (.compile raw) = .ok (.compilation report)) (hn : report.nodes ≠ [])
    (hshield : ∀ c, d.candidateOf? raw = some c → c.shieldsPlaceholder = false) :
    ∃ c layers selector declarations, d.candidateOf? raw = some c ∧
      report.nodes = [.insideLayers layers (.rule selector declarations)] ∧
      (∃ front back, selector = front ++ ('.' :: Text.escapeIdentifier raw) ++ back ∧
        front.isWhole = true) ∧
      ∀ v ∈ c.variants, ∀ text, v.leaf.enclosed? = some text → ∀ part ∈ text.quotedParts,
        part ∈ selector.quotedParts ∨ ∃ layer ∈ layers, part ∈ layer.2.quotedParts := by
  obtain ⟨c, wraps, assignments, hc, hraw, hblank, hwraps, _, hnodes, _⟩ :=
    exists_closedForm_of_stock hd before h hn
  have hcarries {v : Variant} (hv : v ∈ c.variants) {w : Wrap}
      (hvw : v.wrap? d.variants = some w) : w.Carries v.leaf.quotedParts :=
    carries_of_candidateOf? (isTame_variants_of_stock hd) hc (hshield c hc) hv hvw
  have hall : ∀ w ∈ wraps, ∃ quoted, w.Carries quoted := fun w hw => by
    obtain ⟨v, hv, hvw⟩ := (Variant.mem_wraps hwraps).1 w hw
    exact ⟨_, hcarries hv hvw⟩
  have hsound := Wrap.fillable_of_carries hall
  have hfillable := fun t ht => (hsound.1 t ht).1
  have hmem := fun t ht => (hsound.1 t ht).2
  subst hraw
  refine ⟨c, _, _, _, hc, hnodes, ?_, ?_⟩
  · obtain ⟨front, back, heq, ts, hgives⟩ := exists_throughTemplates_eq hfillable hmem
    exact ⟨front, back, heq, hgives.isWhole⟩
  · intro v hv text htext part hpart
    obtain ⟨w, hw, hvw⟩ := (Variant.mem_wraps hwraps).2 v hv
    have hquoted : v.leaf.quotedParts = text.quotedParts := by
      rw [Leaf.quotedParts, htext]
      rfl
    have hcarries := hcarries hv hvw
    rw [hquoted] at hcarries
    cases hcarries with
    | selector _ _ hsubset =>
      exact .inl (quotedParts_subset_throughTemplates hfillable hmem (closed_classSelector hblank)
        (List.mem_filterMap.2 ⟨_, hw, rfl⟩) (hsubset hpart))
    | atRule _ _ hsubset =>
      exact .inr ⟨_, List.mem_filterMap.2 ⟨_, hw, rfl⟩, hsubset hpart⟩

/-- A class with an at-rule and a selector in brackets. -/
theorem exists_of_bracketed :
    let raw : Text := "[@media_print]:[p_&[a='_']]:flex"
    let node : Node := .atRule "@media" "print"
      [.rule "p .\\[\\@media_print\\]\\:\\[p_\\&\\[a\\=\\'_\\'\\]\\]\\:flex[a='_']"
        [.declaration ⟨"display", "flex", false⟩]]
    ∃ d report, stock = .ok d ∧
      d.replyAfter [.compile "nope"] (.compile raw) = .ok (.compilation report) ∧
      report.nodes = [node] ∧ ∀ c, d.candidateOf? raw = some c → c.shieldsPlaceholder = false ∧
        c.variants = [⟨[], .arbitrary "@media print"⟩, ⟨[], .arbitrary "p &[a='_']"⟩] := by
  intro raw node
  let d : Design :=
    ⟨.stock, .stock .stock, ⟨VariantTable.stockDefinitions .stock, true⟩, .stock, rfl, rfl⟩
  let c : Candidate :=
    { raw, kind := .static, root := "flex", value := none, modifier := none,
      variants := [⟨[], .arbitrary "@media print"⟩, ⟨[], .arbitrary "p &[a='_']"⟩],
      important := false, negative := false, property := none }
  have hread : d.candidateOf? raw = some c := by
    subst d c raw
    decide +kernel
  have hcompile : (d.compilationOf raw).map Compilation.nodes = .ok [node] := by
    rw [compilationOf, hread]
    rfl
  have hshields : c.shieldsPlaceholder = false := by
    subst c raw
    decide +kernel
  obtain ⟨compilation, hcompilation, hnodes⟩ := map_eq_ok.1 hcompile
  refine ⟨_, _, stock_eq_ok, replyAfter_compile.2 ⟨_, hcompilation, rfl⟩, hnodes, fun c' hc => ?_⟩
  cases hread.symm.trans hc
  exact ⟨hshields, rfl⟩

/-- The CSS of a class with an at-rule and a selector in brackets can be decoded. -/
theorem css_decodes_of_bracketed : ∃ d report, stock = .ok d ∧
    d.replyAfter [.compile "nope"] (.compile "[@media_print]:[p_&[a='_']]:flex")
      = .ok (.compilation report) ∧
    report.nodes ≠ [] ∧ ∃ value, report.css.decode = .ok value := by
  obtain ⟨d, report, hd, h, hnodes, hread⟩ := exists_of_bracketed
  have hn : report.nodes ≠ [] := hnodes ▸ List.cons_ne_nil _ _
  exact ⟨d, report, hd, h, hn, css_decodes_of_stock hd _ h hn fun c hc => (hread c hc).1⟩

/-- The quoted part of a selector in brackets is in the selector of the rule. -/
theorem selector_of_bracketed : ∃ d report c layers selector declarations, stock = .ok d ∧
    d.replyAfter [.compile "nope"] (.compile "[@media_print]:[p_&[a='_']]:flex")
      = .ok (.compilation report) ∧
    d.candidateOf? "[@media_print]:[p_&[a='_']]:flex" = some c ∧
    report.nodes = [.insideLayers layers (.rule selector declarations)] ∧
    (∃ front back, selector
      = front ++ ('.' :: Text.escapeIdentifier "[@media_print]:[p_&[a='_']]:flex") ++ back ∧
      front.isWhole = true) ∧
    ("'_'".toList ∈ selector.quotedParts ∨ ∃ layer ∈ layers, "'_'".toList ∈ layer.2.quotedParts) := by
  obtain ⟨d, report, hd, h, hnodes, hread⟩ := exists_of_bracketed
  have hn : report.nodes ≠ [] := hnodes ▸ List.cons_ne_nil _ _
  obtain ⟨c, layers, selector, declarations, hc, hnode, hfront, hquoted⟩ :=
    selector_of_stock hd _ h hn fun c hc => (hread c hc).1
  have hvariant : (⟨[], .arbitrary "p &[a='_']"⟩ : Variant) ∈ c.variants := by
    rw [(hread c hc).2]
    exact .tail _ (.head _)
  have hpart : "'_'".toList ∈ Text.quotedParts "p &[a='_']" := by
    have hparts : Text.quotedParts "p &[a='_']" = ["'_'".toList] := by decide +kernel
    rw [hparts]
    exact .head _
  exact ⟨d, report, c, layers, selector, declarations, hd, h, hc, hnode, hfront,
    hquoted _ hvariant _ rfl _ hpart⟩

/-- The selector of the class is put into a quoted part as well. -/
theorem selector_of_shielded :
    let raw : Text := "[&[a='&']]:flex"
    let selector : Text :=
      ".\\[\\&\\[a\\=\\'\\&\\'\\]\\]\\:flex[a='.\\[\\&\\[a\\=\\'\\&\\'\\]\\]\\:flex']"
    ∃ d report c, stock = .ok d ∧
      d.replyAfter [] (.compile raw) = .ok (.compilation report) ∧
      report.nodes = [.rule selector [.declaration ⟨"display", "flex", false⟩]] ∧
      d.candidateOf? raw = some c ∧ c.variants = [⟨[], .arbitrary "&[a='&']"⟩] ∧
      Text.quotedParts "&[a='&']" = ["'&'".toList] ∧ Text.hasInside "'&'" selector = false := by
  intro raw selector
  let d : Design :=
    ⟨.stock, .stock .stock, ⟨VariantTable.stockDefinitions .stock, true⟩, .stock, rfl, rfl⟩
  have hread : d.candidateOf? raw = some
      { raw, kind := .static, root := "flex", value := none, modifier := none,
        variants := [⟨[], .arbitrary "&[a='&']"⟩], important := false, negative := false,
        property := none } := by
    subst d raw
    decide +kernel
  have hcompile : (d.compilationOf raw).map Compilation.nodes
      = .ok [.rule selector [.declaration ⟨"display", "flex", false⟩]] := by
    rw [compilationOf, hread]
    rfl
  have hquoted : Text.quotedParts "&[a='&']" = ["'&'".toList] := by decide +kernel
  have hinside : Text.hasInside "'&'" selector = false := by
    subst selector
    decide +kernel
  obtain ⟨compilation, hcompilation, hnodes⟩ := map_eq_ok.1 hcompile
  exact ⟨_, _, _, stock_eq_ok, replyAfter_compile.2 ⟨_, hcompilation, rfl⟩, hnodes, hread, rfl,
    hquoted, hinside⟩

end Design

end UtilityCss
