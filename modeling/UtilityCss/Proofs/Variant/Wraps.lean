import UtilityCss.Proofs.Bracket.Placeholder
import UtilityCss.Proofs.Compilation.Fitting
import UtilityCss.Proofs.Stylesheet.Identifier
import UtilityCss.Variant.Wrap

/-!
# The texts of a wrap

Every step that makes a wrap puts texts together, around brackets and in the place of `&`. If the
texts that it begins with are closed, and no placeholder of them is shielded, the wrap is *sound*:
its template can be filled, or its at-rule is closed. The quoted parts of the text in brackets go
along with it (`Wrap.Carries`).

One step also cuts. The negation of a condition looks for its first round bracket, and takes what
stands before for a name. This is sound as long as there are plain characters only before that
bracket (`Text.hasPlainHead`), since then the negation differs from the condition in such
characters alone (`exists_negateCondition_eq`).

* `Relation.carries_of_compound?`, `Relation.carries_of_arbitrary?`: what compound roots make;
* `Query.carries_of_key?`, `Query.carries_of_arbitrary?`: what functional variants make.
-/

namespace UtilityCss

/-! ## Frames -/

section Frames

variable {name first last s : Text} {parts : List Text}

/-- A name in front of brackets, with the texts between them. -/
theorem fillable_framed (b : Bracket) (hname : Fillable name) (hfirst : Fillable first)
    (hparts : ∀ s ∈ parts, Fillable s) (hlast : Fillable last) :
    Fillable (Text.join [] ((name ++ b.opener :: first) :: parts ++ [last ++ [b.closer]])) := by
  have hframe : Text.join [] ((name ++ b.opener :: first) :: parts ++ [last ++ [b.closer]])
      = name ++ b.enclose (first :: parts ++ [last]).flatten := by
    simp [Text.join_eq_flatten, Bracket.enclose]
  rw [hframe]
  exact hname.append (.enclose b (arguments_of .nil .append hfirst hparts hlast))

/-- A text without quotes and backslashes gives no quoted part. -/
theorem exists_gives_of_mild (h : ∀ c ∈ s, isMild c = true) :
    ∃ ts, s.Gives ts ∧ ts.filterMap Token.quoted? = [] := by
  induction s with
  | nil => exact ⟨[], .nil, rfl⟩
  | cons c s ih =>
    obtain ⟨hc, h⟩ := List.forall_mem_cons.1 h
    obtain ⟨ts, hgives, hnone⟩ := ih h
    cases ho : Bracket.ofOpener? c with
    | some b =>
      rw [Bracket.ofOpener?_eq_some.1 ho]
      exact ⟨_, .append (.opener b) hgives, hnone⟩
    | none =>
      cases hcl : Bracket.ofCloser? c with
      | some b =>
        rw [Bracket.ofCloser?_eq_some.1 hcl]
        exact ⟨_, .append (.closer b) hgives, hnone⟩
      | none =>
        simp only [isMild, Bool.and_eq_true] at hc
        have hplain : Token.isPlain c = true := by
          simp [Token.isPlain, ho, hcl, hc.1]
        exact ⟨_, .append (.plain hplain) hgives, hnone⟩

/-- What stands between other texts keeps its quoted parts. -/
theorem quotedParts_subset_join (hfirst : ∀ c ∈ first, isMild c = true) (hs : Closed s)
    (parts : List Text) : s.quotedParts ⊆ (Text.join [] (first :: s :: parts)).quotedParts := by
  obtain ⟨ts, hgives, hnone⟩ := exists_gives_of_mild hfirst
  rw [Text.join_eq_flatten, List.flatten_cons, List.flatten_cons, hgives.quotedParts_append, hnone,
    List.nil_append, Text.quotedParts_append_of_closed hs]
  exact List.subset_append_left _ _

end Frames

/-! ## Negated conditions -/

/-- Whether all characters before the first round bracket are plain. -/
def Text.hasPlainHead (s : Text) : Bool :=
  (s.takeWhile (· ≠ '(')).all Token.isPlain

section Negation

variable {s left : Text}

theorem hasPlainHead_append (hleft : ∀ c ∈ left, Token.isPlain c = true) :
    (left ++ s).hasPlainHead = s.hasPlainHead := by
  have hne : ∀ c ∈ left, decide (c ≠ '(') = true := fun c hc => by
    refine decide_eq_true ?_
    rintro rfl
    cases hleft '(' hc
  rw [Text.hasPlainHead, List.takeWhile_append_of_pos hne, List.all_append,
    List.all_eq_true.2 hleft, Bool.true_and, Text.hasPlainHead]

theorem quotedParts_plain_append (hleft : ∀ c ∈ left, Token.isPlain c = true) :
    (left ++ s).quotedParts = s.quotedParts := by
  induction left with
  | nil => rfl
  | cons c left ih =>
    obtain ⟨hc, hleft⟩ := List.forall_mem_cons.1 hleft
    rw [List.cons_append, Text.quotedParts_plain hc, ih hleft]

theorem quotedParts_strip (h : Closed s) : s.strip.quotedParts = s.quotedParts := by
  obtain ⟨left, right, hs, hleft, hright⟩ := Text.exists_eq_strip s
  have hplain {t : Text} (ht : ∀ c ∈ t, isBlank c = true) : ∀ c ∈ t, Token.isPlain c = true :=
    fun c hc => Closed.isPlain_of_isBlank (ht c hc)
  have hnone : (right ++ []).quotedParts = [] :=
    (quotedParts_plain_append (hplain hright)).trans Text.Gives.nil.quotedParts_eq
  rw [List.append_nil] at hnone
  have hparts := congrArg Text.quotedParts hs
  rw [List.append_assoc, quotedParts_plain_append (hplain hleft),
    Text.quotedParts_append_of_closed h.strip, hnone, List.append_nil] at hparts
  exact hparts.symm

/-- A closed text with plain characters before its first round bracket. -/
structure IsCondition (s : Text) : Prop where
  closed : Closed s
  head : s.hasPlainHead = true

/-- Plain characters in front of a condition make no difference. -/
theorem isCondition_append (hleft : ∀ c ∈ left, Token.isPlain c = true) :
    IsCondition (left ++ s) ↔ IsCondition s := by
  constructor
  · rintro ⟨hclosed, hhead⟩
    rw [hasPlainHead_append hleft] at hhead
    exact ⟨.of_append_left hleft hclosed, hhead⟩
  · rintro ⟨hclosed, hhead⟩
    exact ⟨.append (.of_plain hleft) hclosed, (hasPlainHead_append hleft).trans hhead⟩

/-- The negation of a condition differs from it in plain characters in front. -/
theorem exists_negateCondition_eq (h : s.hasPlainHead = true) : ∃ left left' rest,
    s = left ++ rest ∧ negateCondition s = left' ++ rest ∧
      (∀ c ∈ left, Token.isPlain c = true) ∧ ∀ c ∈ left', Token.isPlain c = true := by
  have hall : "not ".toList.all Token.isPlain = true := by decide
  have hnot := List.all_eq_true.1 hall
  have hhead : ∀ c ∈ s.takeWhile (· ≠ '('), Token.isPlain c = true := List.all_eq_true.1 h
  have hsplit := List.takeWhile_append_dropWhile (p := fun c => decide (c ≠ '(')) (l := s)
  rw [negateCondition]
  split
  · next hprefix =>
    obtain ⟨rest, rfl⟩ := List.isPrefixOf_iff_prefix.1 hprefix
    exact ⟨"not ".toList, [], rest, rfl, rfl, hnot, List.forall_mem_nil _⟩
  · dsimp only
    split
    · next c condition hcondition =>
      -- The head is kept without its blanks, and the `not` comes behind it.
      split
      · exact ⟨[], "not ".toList, s, rfl, rfl, List.forall_mem_nil _, hnot⟩
      · have hc : c = '(' := by
          have := List.head?_dropWhile_not (fun c => decide (c ≠ '(')) s
          rw [hcondition] at this
          simpa using this
        rw [hcondition, hc] at hsplit
        refine ⟨_, Text.strip (s.takeWhile (· ≠ '(')) ++ ' ' :: "not ".toList, '(' :: condition,
          hsplit.symm, ?_, hhead,
          List.forall_mem_append.2 ⟨fun x hx => hhead x ?_, List.forall_mem_cons.2 ⟨rfl, hnot⟩⟩⟩
        · simp [Text.join_eq_flatten]
        · obtain ⟨left, right, hs, _⟩ := Text.exists_eq_strip (s.takeWhile (· ≠ '('))
          rw [hs]
          exact List.mem_append_left _ (List.mem_append_right _ hx)
    · exact ⟨[], "not ".toList, s, rfl, rfl, List.forall_mem_nil _, hnot⟩

theorem IsCondition.negate (h : IsCondition s) : IsCondition (negateCondition s) := by
  obtain ⟨left, left', rest, rfl, hnegate, hleft, hleft'⟩ := exists_negateCondition_eq h.head
  rw [hnegate, isCondition_append hleft', ← isCondition_append hleft]
  exact h

theorem quotedParts_negateCondition (h : s.hasPlainHead = true) :
    (negateCondition s).quotedParts = s.quotedParts := by
  obtain ⟨left, left', rest, rfl, hnegate, hleft, hleft'⟩ := exists_negateCondition_eq h
  rw [hnegate, quotedParts_plain_append hleft, quotedParts_plain_append hleft']

end Negation

/-! ## Sound wraps -/

/-- The template of a wrap can be filled, or its at-rule is closed; and some quoted parts are in
    it. -/
inductive Wrap.Carries (quoted : List Text) : Wrap → Prop
  | selector {template : Text} : Fillable template → '&' ∈ template →
      quoted ⊆ template.quotedParts → Carries quoted (.selector template)
  | atRule {name params : Text} : Closed name → Closed params → quoted ⊆ params.quotedParts →
      Carries quoted (.atRule name params)

/-- Whether the condition of a wrap may be negated, if it has one. -/
def Wrap.isNegatable : Wrap → Bool
  | selector _ => true
  | atRule _ params => params.hasPlainHead

/-- A text without placeholders, spaces and characters with a meaning of their own. -/
def Text.IsWord (s : Text) : Prop :=
  ∀ c ∈ s, Token.isPlain c = true ∧ c ≠ '&' ∧ c ≠ ' '

theorem isWord_of_isNameChar {c : Char} (h : isNameChar c = true) :
    Token.isPlain c = true ∧ c ≠ '&' ∧ c ≠ ' ' := by
  refine ⟨(isPlain_of_isNameChar h).1, ?_, ?_⟩ <;> rintro rfl <;> cases h

theorem Text.IsWord.fillable {s : Text} (h : s.IsWord) : Fillable s :=
  .of_plain fun c hc => (h c hc).1

section Framed

variable {quoted : List Text} {name first last s : Text} {others : List Text}

/-- A text between brackets, with a placeholder in front of them. -/
theorem Wrap.Carries.framed (b : Bracket) (hname : Tame name) (hplaceholder : '&' ∈ name)
    (hfirst : Tame first) (hs : Fillable s) (hothers : ∀ t ∈ others, Fillable t)
    (hlast : Fillable last) (hquoted : quoted ⊆ s.quotedParts) :
    Carries quoted (.selector
      (Text.join [] ((name ++ b.opener :: first) :: (s :: others) ++ [last ++ [b.closer]]))) := by
  have hopener : isMild b.opener = true := by
    cases b <;> rfl
  have hmild : ∀ c ∈ name ++ b.opener :: first, isMild c = true :=
    List.forall_mem_append.2 ⟨hname.mild, List.forall_mem_cons.2 ⟨hopener, hfirst.mild⟩⟩
  refine .selector (fillable_framed b (.of_tame hname) (.of_tame hfirst)
    (List.forall_mem_cons.2 ⟨hs, hothers⟩) hlast) ?_
    (List.Subset.trans hquoted (quotedParts_subset_join hmild hs.closed _))
  rw [Text.join_eq_flatten]
  exact List.mem_append_left _ (List.mem_append_left _ hplaceholder)

end Framed

/-! ## Compound roots -/

namespace Relation

/-- Whether the texts that a compound root adds are tame. -/
def isTame : Relation → Bool
  | marked name combinator => name.all isNameChar && combinator.isTame
  | _ => true

theorem fillable_groupSelector {name : Text} (hname : name.all isNameChar = true)
    {group : Option Text} (hgroup : ∀ g, group = some g → g.IsWord) :
    Fillable (groupSelector name group) := by
  have hword : Text.IsWord (name ++ renderModifier group) := by
    refine List.forall_mem_append.2 ⟨fun c hc => ?_, ?_⟩
    · exact isWord_of_isNameChar (List.all_eq_true.1 hname c hc)
    · cases group with
      | none => exact List.forall_mem_nil _
      | some g => exact List.forall_mem_cons.2 ⟨by decide, hgroup g rfl⟩
  have hescaped : Fillable (Text.escapeIdentifier (name ++ renderModifier group)) :=
    fillable_escapeIdentifier (fun h => (hword _ h).2.2 rfl) fun h => (hword _ h).2.1 rfl
  have hwhere : Fillable ":where".toList := .of_isTame (by decide)
  have hdot : Fillable ".".toList := .of_isTame (by decide)
  exact fillable_framed .round hwhere hdot (List.forall_mem_singleton.2 hescaped) .nil

theorem fillable_universal {selector : Text} (h : Fillable selector) :
    Fillable (universal selector) :=
  h.substitute (.plain rfl .nil)

theorem quotedParts_subset_universal {selector : Text} (h : Fillable selector) :
    selector.quotedParts ⊆ (universal selector).quotedParts :=
  h.quotedParts_subset_substitute (.plain rfl .nil)

variable {r : Relation} {group : Option Text} {quoted : List Text}

/-- The universal form of a selector between round brackets. -/
theorem carries_universal {name s : Text} (hname : name.isTame = true) (hplaceholder : '&' ∈ name)
    (hs : Fillable s) (hquoted : quoted ⊆ s.quotedParts) :
    Wrap.Carries quoted (.selector (Text.join [] [name ++ ['('], universal s, [')']])) :=
  .framed .round (.of_isTame hname) hplaceholder tame_nil (fillable_universal hs)
    (List.forall_mem_nil _) .nil (List.Subset.trans hquoted (quotedParts_subset_universal hs))

theorem carries_not {s : Text} (hs : Fillable s) (hquoted : quoted ⊆ s.quotedParts) :
    Wrap.Carries quoted (.selector (Text.join [] ["&:not(", universal s, ")"])) :=
  carries_universal (by decide : Text.isTame "&:not" = true) (by decide) hs hquoted

theorem carries_has {s : Text} (hs : Fillable s) (hquoted : quoted ⊆ s.quotedParts) :
    Wrap.Carries quoted (.selector (Text.join [] ["&:has(", universal s, ")"])) :=
  carries_universal (by decide : Text.isTame "&:has" = true) (by decide) hs hquoted

theorem carries_is {s combinator : Text} (hs : Fillable s) (hcombinator : combinator.isTame = true)
    (hquoted : quoted ⊆ s.quotedParts) :
    Wrap.Carries quoted (.selector (Text.join [] ["&:is(", s, combinator, ")"])) := by
  have hname : Tame "&:is".toList := .of_isTame (by decide)
  exact .framed .round hname (by decide) tame_nil hs
    (List.forall_mem_singleton.2 (.of_isTame hcombinator)) .nil hquoted

theorem carries_where {s : Text} (hs : Fillable s) (hquoted : quoted ⊆ s.quotedParts) :
    Wrap.Carries quoted (.selector (Text.join [] [":where(", universal s, ") &"])) := by
  have hwhere : Fillable ":where".toList := .of_isTame (by decide)
  have hend : Fillable " &".toList := .of_isTame (by decide)
  have hframe : Text.join [] [":where(", universal s, ") &"]
      = ":where".toList ++ Bracket.round.enclose (universal s) ++ " &".toList := by
    simp [Text.join_eq_flatten, Bracket.enclose, Bracket.opener, Bracket.closer]
  have hfirst : ":where(".toList.all isMild = true := by decide
  refine .selector ?_ ?_ (List.Subset.trans hquoted (List.Subset.trans
    (quotedParts_subset_universal hs)
    (quotedParts_subset_join (List.all_eq_true.1 hfirst) (fillable_universal hs).closed _)))
  · rw [hframe]
    exact (hwhere.append ((fillable_universal hs).enclose .round)).append hend
  · rw [hframe]
    exact List.mem_append_right _ (by decide)

/-- A compound root keeps a wrap sound, and the quoted parts in it. -/
theorem carries_of_compound? (hr : r.isTame = true) (hgroup : ∀ g, group = some g → g.IsWord)
    {w w' : Wrap} (hw : w.Carries quoted) (hn : w.isNegatable = true)
    (h : r.compound? w group = some w') : w'.Carries quoted ∧ w'.isNegatable = true := by
  unfold compound? at h
  split at h
  · -- A negated selector.
    cases h
    cases hw with
    | selector hs _ hquoted => exact ⟨carries_not hs hquoted, rfl⟩
  · -- A negated condition: only its head changes, and that stays plain.
    obtain ⟨_, h⟩ := Option.ite_none_right_eq_some.1 h
    cases h
    cases hw with
    | atRule hname hparams hquoted =>
      have hnegated := IsCondition.negate ⟨hparams, hn⟩
      refine ⟨.atRule hname hnegated.closed ?_, hnegated.head⟩
      rwa [quotedParts_negateCondition hn]
  · next name combinator template =>
    -- The group takes the place of the class, so the template is filled before it is framed.
    rw [isTame, Bool.and_eq_true] at hr
    cases h
    cases hw with
    | selector hs _ hquoted =>
      have hselector := fillable_groupSelector hr.1 hgroup
      exact ⟨carries_is (hs.substitute hselector) hr.2
        (List.Subset.trans hquoted (hs.quotedParts_subset_substitute hselector.closed)), rfl⟩
  · cases h
    cases hw with
    | selector hs _ hquoted => exact ⟨carries_has hs hquoted, rfl⟩
  · cases h
    cases hw with
    | selector hs _ hquoted => exact ⟨carries_where hs hquoted, rfl⟩
  · cases h

/-- The wrap that a compound root makes of a bracketed selector is sound, and its quoted parts are
    in it. -/
theorem carries_of_arbitrary? (hr : r.isTame = true) (hgroup : ∀ g, group = some g → g.IsWord)
    {selector : Text} (hs : Fillable selector) {w : Wrap}
    (h : r.arbitrary? selector group = some w) :
    w.Carries selector.quotedParts ∧ w.isNegatable = true := by
  unfold arbitrary? at h
  split at h
  · cases h
    exact ⟨carries_not hs (List.Subset.refl _), rfl⟩
  · next name combinator =>
    -- A selector without a placeholder stands behind the group.
    rw [isTame, Bool.and_eq_true] at hr
    cases h
    have hselector := fillable_groupSelector hr.1 hgroup
    have hframe : Text.join [] [groupSelector name group, ":is(", selector, ")"]
        = groupSelector name group ++ (":is".toList ++ Bracket.round.enclose selector) := by
      simp [Text.join_eq_flatten, Bracket.enclose, Bracket.opener, Bracket.closer]
    have his : ":is".toList.all Token.isPlain = true := by decide
    rw [List.all_eq_true] at his
    refine ⟨carries_is ?_ hr.2 ?_, rfl⟩
    · split
      · exact hs.substitute hselector
      · rw [hframe]
        exact hselector.append ((Fillable.of_plain his).append (hs.enclose .round))
    · split
      · exact hs.quotedParts_subset_substitute hselector.closed
      · rw [hframe, Text.quotedParts_append_of_closed hselector.closed,
          quotedParts_plain_append his, Text.quotedParts_enclose hs.closed]
        exact List.subset_append_right _ _
  · cases h
    exact ⟨carries_has hs (List.Subset.refl _), rfl⟩
  · cases h
    exact ⟨carries_where hs (List.Subset.refl _), rfl⟩
  · cases h

end Relation

/-! ## Queries -/

namespace Query

/-- Whether the texts that a query adds are tame. -/
def isTame : Query → Bool
  | position pseudoClass => pseudoClass.isTame
  | size query => query.atRule.isTame && query.operator.isTame && query.theme.isTame
  | _ => true

variable {quoted : List Text} {s : Text}

theorem carries_attribute {name s : Text} (hname : name.isTame = true) (hs : Fillable s)
    (hquoted : quoted ⊆ s.quotedParts) :
    Wrap.Carries quoted (.selector (Text.join [] [('&' :: '[' :: name), s, [']']])) := by
  have hplaceholder : Tame ['&'] := .of_isTame (by decide)
  exact .framed .square hplaceholder (by decide) (.of_isTame hname) hs (List.forall_mem_nil _) .nil
    hquoted

theorem carries_position {pseudoClass s : Text} (hclass : pseudoClass.isTame = true)
    (hs : Fillable s) (hquoted : quoted ⊆ s.quotedParts) :
    Wrap.Carries quoted (.selector (Text.join [] ["&:", pseudoClass, "(", s, ")"])) := by
  have hname : Tame ("&:".toList ++ pseudoClass) :=
    .append (.of_isTame (by decide)) (.of_isTame hclass)
  have hframe : Text.join [] ["&:", pseudoClass, "(", s, ")"]
      = Text.join [] [("&:".toList ++ pseudoClass) ++ ['('], s, [')']] := by
    simp [Text.join_eq_flatten]
  rw [hframe]
  exact .framed .round hname (List.mem_append_left _ (by decide)) tame_nil hs
    (List.forall_mem_nil _) .nil hquoted

theorem carries_supports (hs : Fillable s) (hquoted : quoted ⊆ s.quotedParts) :
    Wrap.Carries quoted (.atRule "@supports" (supportsCondition s)) := by
  have hname : Tame "@supports".toList := .of_isTame (by decide)
  have hopener : ['('].all isMild = true := by decide
  have hlast : Tame ": var(--tw)".toList := .of_isTame (by decide)
  have hparts : ∀ t ∈ [s], Closed t := List.forall_mem_singleton.2 hs.closed
  have hinside (parts : List Text) : quoted ⊆ (Text.join [] (['('] :: s :: parts)).quotedParts :=
    List.Subset.trans hquoted
      (quotedParts_subset_join (List.all_eq_true.1 hopener) hs.closed parts)
  rw [supportsCondition]
  split
  · exact .atRule hname.closed hs.closed hquoted
  · split
    · exact .atRule hname.closed (closed_call tame_nil .nil hparts .nil) (hinside _)
    · exact .atRule hname.closed (closed_call tame_nil .nil hparts hlast.closed) (hinside _)

theorem carries_of_size? {q : SizeQuery} (hq : (size q).isTame = true) {argument : Argument}
    {modifier : Option Text} (hsize : ∀ size, q.size? argument = some size →
      Closed size ∧ quoted ⊆ size.quotedParts)
    (hmodifier : ∀ m, modifier = some m → m.IsWord) {w : Wrap}
    (h : q.wrap? argument modifier = some w) : w.Carries quoted := by
  simp only [isTame, Bool.and_eq_true] at hq
  rw [SizeQuery.wrap?] at h
  obtain ⟨_, h⟩ := Option.ite_none_left_eq_some.1 h
  obtain ⟨size, hs, rfl⟩ := Option.map_eq_some_iff.1 h
  obtain ⟨hclosed, hquoted⟩ := hsize size hs
  have hoperator : Tame q.operator := .of_isTame hq.1.2
  have hwidth : Tame "width ".toList := .of_isTame (by decide)
  have hblank : Tame " ".toList := .of_isTame (by decide)
  have hfirst : ∀ c ∈ "(width ".toList ++ q.operator ++ " ".toList, isMild c = true :=
    List.forall_mem_append.2 ⟨List.forall_mem_append.2
      ⟨List.forall_mem_cons.2 ⟨rfl, hwidth.mild⟩, hoperator.mild⟩, hblank.mild⟩
  have hparts : ∀ t ∈ [q.operator, " ".toList, size], Closed t := by
    simp only [List.forall_mem_cons]
    exact ⟨hoperator.closed, hblank.closed, hclosed, List.forall_mem_nil _⟩
  have hcondition : Closed (Text.join [] ["(width ", q.operator, " ", size, ")"]) :=
    closed_call tame_nil hwidth.closed hparts .nil
  have hinside : quoted ⊆ (Text.join [] ["(width ", q.operator, " ", size, ")"]).quotedParts := by
    have hjoin : Text.join [] ["(width ", q.operator, " ", size, ")"]
        = Text.join [] [("(width ".toList ++ q.operator ++ " ".toList), size, [')']] := by
      simp [Text.join_eq_flatten]
    rw [hjoin]
    exact List.Subset.trans hquoted (quotedParts_subset_join hfirst hclosed _)
  have hrule : Closed q.atRule := (Tame.of_isTame hq.1.1).closed
  cases modifier with
  | none => exact .atRule hrule hcondition hinside
  | some name =>
    have hname : ∀ c ∈ name ++ [' '], Token.isPlain c = true := List.forall_mem_append.2
      ⟨fun c hc => (hmodifier name rfl c hc).1, List.forall_mem_singleton.2 rfl⟩
    refine .atRule hrule ?_ ?_ <;> dsimp only <;> rw [List.append_cons]
    · exact .append (.of_plain hname) hcondition
    · rw [quotedParts_plain_append hname]
      exact hinside

end Query

namespace Query

variable {modifier : Option Text} {w : Wrap}

theorem carries_of_key? {q : Query} (hq : q.isTame = true) {value : Text} (hvalue : value.IsWord)
    (hmodifier : ∀ m, modifier = some m → m.IsWord) (h : q.wrap? (.key value) modifier = some w) :
    w.Carries [] := by
  have hfillable := hvalue.fillable
  have hnone {s : Text} : [] ⊆ s.quotedParts := List.nil_subset _
  cases q with
  | aria =>
    cases modifier with
    | none =>
      obtain ⟨_, h⟩ := Option.ite_none_right_eq_some.1 h
      cases h
      have hplaceholder : Tame ['&'] := .of_isTame (by decide)
      have hname : Tame "aria-".toList := .of_isTame (by decide)
      have hrest : QuotedRest '"' "true\"".toList :=
        .char (by decide) (by decide) (.char (by decide) (by decide) (.char (by decide) (by decide)
          (.char (by decide) (by decide) .close)))
      have hlast : Fillable "=\"true\"".toList := .plain rfl (.quoted rfl hrest (by decide) .nil)
      exact .framed .square hplaceholder (by decide) hname hfillable (List.forall_mem_nil _) hlast
        hnone
    | some m => cases h
  | data =>
    cases modifier with
    | none =>
      cases h
      exact carries_attribute (by decide : Text.isTame "data-" = true) hfillable hnone
    | some m => cases h
  | position pseudoClass =>
    cases modifier with
    | none =>
      obtain ⟨_, h⟩ := Option.ite_none_right_eq_some.1 h
      cases h
      exact carries_position hq hfillable hnone
    | some m => cases h
  | supports =>
    cases modifier with
    | none =>
      cases h
      exact carries_supports hfillable hnone
    | some m => cases h
  | size query =>
    refine carries_of_size? hq (fun size hsize => ⟨?_, hnone⟩) hmodifier h
    obtain ⟨name, _, hget⟩ := Option.bind_eq_some_iff.1 hsize
    exact (Theme.tame_of_get? (Bool.and_eq_true_iff.1 hq).2 hget).closed

theorem carries_of_arbitrary? {q : Query} (hq : q.isTame = true) {value : Text}
    (hvalue : Fillable value) (hmodifier : ∀ m, modifier = some m → m.IsWord)
    (h : q.wrap? (.arbitrary value) modifier = some w) : w.Carries value.quotedParts := by
  have hall := List.Subset.refl value.quotedParts
  cases q with
  | aria =>
    cases modifier with
    | none =>
      cases h
      exact carries_attribute (by decide : Text.isTame "aria-" = true) hvalue hall
    | some m => cases h
  | data =>
    cases modifier with
    | none =>
      cases h
      exact carries_attribute (by decide : Text.isTame "data-" = true) hvalue hall
    | some m => cases h
  | position pseudoClass =>
    cases modifier with
    | none =>
      cases h
      exact carries_position hq hvalue hall
    | some m => cases h
  | supports =>
    cases modifier with
    | none =>
      cases h
      exact carries_supports hvalue hall
    | some m => cases h
  | size query =>
    refine carries_of_size? hq (fun size hsize => ?_) hmodifier h
    obtain ⟨_, hsize⟩ := Option.ite_none_right_eq_some.1 hsize
    cases hsize
    exact ⟨hvalue.closed, hall⟩

end Query

end UtilityCss
