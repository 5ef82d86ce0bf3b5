import UtilityCss.Proofs.Bracket.Signs
import UtilityCss.Variant.Wrap

/-!
# Filling a template

A template is filled by putting a text in the place of every `&`, wherever it stands. In quotes or
after a backslash that is the wrong place: what is put in would become a part of the quoted text,
and its first character would be taken along by the backslash. A closed text is *fillable* if no
placeholder is *shielded* like this (`Closed.fillable`). Then the placeholders alone change: what
is put in stays closed, outside of quotes, and so do all the quoted parts.

* `Fillable.closed_substitute`, `Fillable.substitute`: filling keeps texts closed and fillable;
* `Fillable.quotedParts_subset_substitute`: it keeps the quoted parts;
* `Fillable.exists_before`: where the first placeholder stands.
-/

namespace UtilityCss

/-- A closed text in which no placeholder stands in quotes or after a backslash. -/
inductive Fillable : Text → Prop
  | nil : Fillable []
  | plain {c : Char} {rest : Text} : Token.isPlain c = true → Fillable rest → Fillable (c :: rest)
  | escaped {c : Char} {rest : Text} : isBlank c = false → c ≠ '&' → Fillable rest →
      Fillable ('\\' :: c :: rest)
  | quoted {q : Char} {inside rest : Text} : isQuote q = true → QuotedRest q inside →
      '&' ∉ inside → Fillable rest → Fillable (q :: inside ++ rest)
  | group {b : Bracket} {inside rest : Text} : Fillable inside → Fillable rest →
      Fillable (b.enclose inside ++ rest)

/-- Whether a placeholder of a text stands in quotes or after a backslash. -/
def Text.shieldsPlaceholder (s : Text) : Bool :=
  hasInside ['\\', '&'] s || s.quotedParts.any hasPlaceholder

/-! ## Substitution -/

namespace Text

variable {c : Char} {value : Text}

theorem substitute_cons (x : Char) (s : Text) (c : Char) (value : Text) :
    substitute (x :: s) c value = (if x = c then value else [x]) ++ s.substitute c value := rfl

theorem substitute_of_not_mem {s : Text} (h : c ∉ s) : s.substitute c value = s := by
  induction s with
  | nil => rfl
  | cons x s ih =>
    rw [List.mem_cons, not_or] at h
    rw [substitute_cons, if_neg (Ne.symm h.1), ih h.2, List.singleton_append]

theorem hasInside_eq_true {part s : Text} : hasInside part s = true ↔ part <:+: s := by
  induction s with
  | nil => simp [hasInside]
  | cons x s ih => rw [hasInside, Bool.or_eq_true, List.isPrefixOf_iff_prefix, ih,
      List.infix_cons_iff]

theorem substitute_enclose (b : Bracket) (s x : Text) :
    (b.enclose s).substitute '&' x = b.enclose (s.substitute '&' x) := by
  cases b <;> simp [Bracket.enclose, Bracket.opener, Bracket.closer, substitute]

/-! ## Quoted parts -/

theorem quotedParts_plain (hc : Token.isPlain c = true) (s : Text) :
    quotedParts (c :: s) = s.quotedParts :=
  (Gives.plain hc).quotedParts_append s

theorem quotedParts_escaped (hc : isBlank c = false) (s : Text) :
    quotedParts ('\\' :: c :: s) = s.quotedParts :=
  (Gives.escaped hc).quotedParts_append s

theorem quotedParts_quoted (hc : isQuote c = true) {inside : Text} (h : QuotedRest c inside)
    (s : Text) : quotedParts (c :: inside ++ s) = (c :: inside) :: s.quotedParts := by
  rw [(Gives.quoted hc h).quotedParts_append]
  rfl

theorem quotedParts_append_of_closed {s : Text} (hs : Closed s) (t : Text) :
    (s ++ t).quotedParts = s.quotedParts ++ t.quotedParts := by
  obtain ⟨ts, hgives, _⟩ := hs.exists_gives
  rw [hgives.quotedParts_append, hgives.quotedParts_eq]

theorem quotedParts_enclose {s : Text} (hs : Closed s) (b : Bracket) :
    (b.enclose s).quotedParts = s.quotedParts := by
  obtain ⟨ts, hgives, _⟩ := hs.exists_gives
  rw [(hgives.enclose b).quotedParts_eq, hgives.quotedParts_eq, List.filterMap_append,
    List.filterMap_append]
  exact List.append_nil _

end Text

/-! ## Fillable texts -/

namespace Fillable

variable {s t x : Text}

theorem closed (h : Fillable s) : Closed s := by
  induction h with
  | nil => exact .nil
  | plain hc _ ih => exact .plain hc ih
  | escaped hc _ _ ih => exact .escaped hc ih
  | quoted hq hinside _ _ ih => exact .quoted hq hinside ih
  | group _ _ ihinside ih => exact .group ihinside ih

theorem append (hs : Fillable s) (ht : Fillable t) : Fillable (s ++ t) := by
  induction hs with
  | nil => exact ht
  | plain hc _ ih => exact .plain hc ih
  | escaped hc hne _ ih => exact .escaped hc hne ih
  | quoted hq hinside hnot _ ih =>
    rw [List.append_assoc]
    exact .quoted hq hinside hnot ih
  | group hinside _ _ ih =>
    rw [List.append_assoc]
    exact .group hinside ih

theorem enclose (b : Bracket) (h : Fillable s) : Fillable (b.enclose s) := by
  have := Fillable.group (b := b) h .nil
  rwa [List.append_nil] at this

theorem of_plain (h : ∀ c ∈ s, Token.isPlain c = true) : Fillable s := by
  induction s with
  | nil => exact .nil
  | cons c s ih =>
    obtain ⟨hc, h⟩ := List.forall_mem_cons.1 h
    exact .plain hc (ih h)

theorem of_tame (h : Tame s) : Fillable s := by
  obtain ⟨hclosed, hmild⟩ := h
  induction hclosed with
  | nil => exact .nil
  | plain hc _ ih => exact .plain hc (ih (List.forall_mem_cons.1 hmild).2)
  | escaped => cases hmild '\\' List.mem_cons_self
  | @quoted q _ _ hq =>
    have := hmild q List.mem_cons_self
    simp [isMild, hq] at this
  | group _ _ ihinside ih =>
    obtain ⟨hgroup, hrest⟩ := List.forall_mem_append.1 hmild
    exact .group (ihinside fun c hc => hgroup c (List.mem_append_left _ (.tail _ hc))) (ih hrest)

theorem of_isTame (h : s.isTame = true) : Fillable s := of_tame (.of_isTame h)

end Fillable

/-- A closed text in which no placeholder is shielded is fillable. -/
theorem Closed.fillable {s : Text} (h : Closed s) (hs : s.shieldsPlaceholder = false) :
    Fillable s := by
  rw [Text.shieldsPlaceholder, Bool.or_eq_false_iff, List.any_eq_false, ← Bool.not_eq_true,
    Text.hasInside_eq_true] at hs
  obtain ⟨hescaped, hquoted⟩ := hs
  induction h with
  | nil => exact .nil
  | @plain c rest hc _ ih =>
    rw [Text.quotedParts_plain hc] at hquoted
    exact .plain hc (ih (fun h => hescaped (h.trans (List.suffix_cons c rest).isInfix)) hquoted)
  | @escaped c rest hc _ ih =>
    rw [Text.quotedParts_escaped hc] at hquoted
    refine .escaped hc ?_ (ih (fun h => hescaped (h.trans ?_)) hquoted)
    · rintro rfl
      exact hescaped (List.prefix_append ['\\', '&'] rest).isInfix
    · exact (List.suffix_append ['\\', c] rest).isInfix
  | @quoted q inside rest hq hinside _ ih =>
    rw [Text.quotedParts_quoted hq hinside] at hquoted
    obtain ⟨hpart, hquoted⟩ := List.forall_mem_cons.1 hquoted
    exact .quoted hq hinside (fun hmem => hpart (List.contains_iff_mem.2 (.tail q hmem)))
      (ih (fun h => hescaped (h.trans (List.suffix_append _ rest).isInfix)) hquoted)
  | @group b inside rest hinside _ ihinside ih =>
    rw [Text.quotedParts_append_of_closed (hinside.enclose b),
      Text.quotedParts_enclose hinside, List.forall_mem_append] at hquoted
    refine .group (ihinside (fun h => hescaped (h.trans ?_)) hquoted.1)
      (ih (fun h => hescaped (h.trans (List.suffix_append _ rest).isInfix)) hquoted.2)
    exact ⟨[b.opener], b.closer :: rest, by simp [Bracket.enclose]⟩

namespace Fillable

variable {s t x : Text}

theorem not_mem_quoted {q : Char} (hq : isQuote q = true) {inside : Text} (h : '&' ∉ inside) :
    '&' ∉ q :: inside := by
  rw [List.mem_cons, not_or]
  refine ⟨?_, h⟩
  rintro rfl
  cases hq

/-- What holds of the texts that are put together holds of a filled template. -/
theorem substitute_of {P : Text → Prop} (append : ∀ {s t}, P s → P t → P (s ++ t))
    (enclose : ∀ {s} b, P s → P (Bracket.enclose b s))
    (kept : ∀ {s}, Fillable s → '&' ∉ s → P s) (ht : Fillable t) (hx : P x) :
    P (t.substitute '&' x) := by
  induction ht with
  | nil => exact kept .nil List.not_mem_nil
  | @plain c rest hc _ ih =>
    rw [Text.substitute_cons]
    refine append ?_ ih
    split
    · exact hx
    · next hne => exact kept (.plain hc .nil) (by simpa [eq_comm] using hne)
  | @escaped c rest hc hne _ ih =>
    rw [Text.substitute_cons, Text.substitute_cons, if_neg (by decide), if_neg hne,
      ← List.append_assoc]
    exact append (kept (.escaped hc hne .nil) (by simpa [eq_comm] using hne)) ih
  | @quoted q inside rest hq hinside hnot _ ih =>
    replace hnot := not_mem_quoted hq hnot
    rw [Text.substitute_append, Text.substitute_of_not_mem hnot]
    refine append (kept ?_ hnot) ih
    have := Fillable.quoted hq hinside (List.not_mem_of_not_mem_cons hnot) .nil
    rwa [List.append_nil] at this
  | @group b inside rest _ _ ihinside ih =>
    rw [Text.substitute_append, Text.substitute_enclose]
    exact append (enclose b ihinside) ih

theorem closed_substitute (ht : Fillable t) (hx : Closed x) : Closed (t.substitute '&' x) :=
  ht.substitute_of .append (fun b h => h.enclose b) (fun h _ => h.closed) hx

theorem substitute (ht : Fillable t) (hx : Fillable x) : Fillable (t.substitute '&' x) :=
  ht.substitute_of .append (fun b h => h.enclose b) (fun h _ => h) hx

/-- All quoted parts of a template are still there when it is filled. -/
theorem quotedParts_subset_substitute (ht : Fillable t) (hx : Closed x) :
    t.quotedParts ⊆ (t.substitute '&' x).quotedParts := by
  induction ht with
  | nil => exact fun _ h => h
  | @plain c rest hc _ ih =>
    rw [Text.quotedParts_plain hc, Text.substitute_cons]
    split
    · rw [Text.quotedParts_append_of_closed hx]
      exact fun part hpart => List.mem_append_right _ (ih hpart)
    · rwa [List.singleton_append, Text.quotedParts_plain hc]
  | @escaped c rest hc hne _ ih =>
    rw [Text.substitute_cons, Text.substitute_cons, if_neg (by decide), if_neg hne]
    rw [Text.quotedParts_escaped hc]
    exact (Text.quotedParts_escaped hc _).symm ▸ ih
  | @quoted q inside rest hq hinside hnot _ ih =>
    replace hnot := not_mem_quoted hq hnot
    rw [Text.substitute_append, Text.substitute_of_not_mem hnot, Text.quotedParts_quoted hq hinside,
      Text.quotedParts_quoted hq hinside]
    exact List.cons_subset_cons _ ih
  | @group b inside rest hinside hrest ihinside ih =>
    have hfilled := hinside.closed_substitute hx
    rw [Text.substitute_append, Text.substitute_enclose,
      Text.quotedParts_append_of_closed (hinside.closed.enclose b),
      Text.quotedParts_enclose hinside.closed,
      Text.quotedParts_append_of_closed (hfilled.enclose b), Text.quotedParts_enclose hfilled]
    exact List.append_subset.2 ⟨fun part h => List.mem_append_left _ (ihinside h),
      fun part h => List.mem_append_right _ (ih h)⟩

/-- In front of the first placeholder no quote is open, and no backslash stands. -/
theorem exists_before (h : Fillable s) (hmem : '&' ∈ s) : ∃ before after,
    s = before ++ '&' :: after ∧ '&' ∉ before ∧ ∃ ts, before.Gives ts := by
  induction h with
  | nil => cases hmem
  | @plain c rest hc _ ih =>
    by_cases hcne : c = '&'
    · exact ⟨[], rest, by rw [hcne]; rfl, List.not_mem_nil, [], .nil⟩
    · obtain ⟨before, after, rfl, hnot, ts, hgives⟩ :=
        ih ((List.mem_cons.1 hmem).resolve_left (Ne.symm hcne))
      exact ⟨c :: before, after, rfl, by simp [Ne.symm hcne, hnot], _,
        Text.Gives.append (.plain hc) hgives⟩
  | @escaped c rest hc hne _ ih =>
    obtain ⟨before, after, rfl, hnot, ts, hgives⟩ := ih (by simpa [Ne.symm hne] using hmem)
    exact ⟨'\\' :: c :: before, after, rfl, by simp [Ne.symm hne, hnot], _,
      Text.Gives.append (.escaped hc) hgives⟩
  | @quoted q inside rest hq hinside hnotin _ ih =>
    have hqne := not_mem_quoted hq hnotin
    obtain ⟨before, after, rfl, hnot, ts, hgives⟩ :=
      ih ((List.mem_append.1 hmem).resolve_left hqne)
    exact ⟨q :: inside ++ before, after, (List.append_assoc ..).symm,
      fun h => (List.mem_append.1 h).elim hqne hnot, _,
      Text.Gives.append (.quoted hq hinside) hgives⟩
  | @group b inside rest hinside _ ihinside ih =>
    by_cases hin : '&' ∈ inside
    · obtain ⟨before, after, rfl, hnot, ts, hgives⟩ := ihinside hin
      refine ⟨b.opener :: before, after ++ b.closer :: rest, by simp [Bracket.enclose], ?_, _,
        Text.Gives.append (.opener b) hgives⟩
      rw [List.mem_cons, not_or]
      exact ⟨by cases b <;> decide, hnot⟩
    · have hgroup : '&' ∉ b.enclose inside := by
        simp only [Bracket.enclose, List.mem_append, List.mem_singleton, not_or]
        exact ⟨⟨by cases b <;> decide, hin⟩, by cases b <;> decide⟩
      obtain ⟨before, after, rfl, hnot, us, hgives'⟩ :=
        ih ((List.mem_append.1 hmem).resolve_left hgroup)
      obtain ⟨ts, hgives, _⟩ := (hinside.closed.enclose b).exists_gives
      exact ⟨b.enclose inside ++ before, after, (List.append_assoc ..).symm,
        fun h => (List.mem_append.1 h).elim hgroup hnot, _, hgives.append hgives'⟩

/-- The quoted parts of what is put in are there, too. -/
theorem subset_quotedParts_substitute (ht : Fillable t) (hmem : '&' ∈ t) (hx : Closed x) :
    x.quotedParts ⊆ (t.substitute '&' x).quotedParts := by
  obtain ⟨before, after, rfl, hnot, ts, hgives⟩ := ht.exists_before hmem
  rw [Text.substitute_append, Text.substitute_of_not_mem hnot, Text.substitute_cons, if_pos rfl,
    hgives.quotedParts_append, Text.quotedParts_append_of_closed hx]
  exact fun part hpart => List.mem_append_right _ (List.mem_append_left _ hpart)

end Fillable

end UtilityCss
