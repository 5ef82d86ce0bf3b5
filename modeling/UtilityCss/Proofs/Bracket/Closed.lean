import UtilityCss.Proofs.Bracket.Division
import UtilityCss.Text.Blank

/-!
# Closed texts

A text is *closed* if nothing in it reaches out over its end: every group and every quote that
opens closes again, groups close in order, and no backslash is left without a character to take
along. So closed texts can stand one after the other and inside groups (`Closed.append`,
`Closed.enclose`), and blanks at their ends can be left out (`Closed.strip`).

A text is *tame* if it is closed and has no quote, no backslash and no semicolon at all. For such
texts the balance test of classes decides (`Tame.of_isTame`).

* `ClosesAll`: the texts that close what stands open. It leads from the scan, which sees one
  character after the other, to the groups that a closed text is made of.
-/

namespace UtilityCss

/-- What follows an opening quote, up to the quote that closes it. -/
inductive QuotedRest (q : Char) : Text → Prop
  | close : QuotedRest q [q]
  | char {c : Char} {rest : Text} : c ≠ q → c ≠ '\\' → QuotedRest q rest →
      QuotedRest q (c :: rest)
  | escaped {c : Char} {rest : Text} : isBlank c = false → QuotedRest q rest →
      QuotedRest q ('\\' :: c :: rest)

/-- Nothing in a text reaches out over its end. A backslash takes along any character but a
    blank. -/
inductive Closed : Text → Prop
  | nil : Closed []
  | plain {c : Char} {rest : Text} : Token.isPlain c = true → Closed rest → Closed (c :: rest)
  | escaped {c : Char} {rest : Text} : isBlank c = false → Closed rest →
      Closed ('\\' :: c :: rest)
  | quoted {q : Char} {inside rest : Text} : isQuote q = true → QuotedRest q inside →
      Closed rest → Closed (q :: inside ++ rest)
  | group {b : Bracket} {inside rest : Text} : Closed inside → Closed rest →
      Closed (b.enclose inside ++ rest)

theorem QuotedRest.exists_eq_concat {q : Char} {inside : Text}
    (h : QuotedRest q inside) : ∃ body, inside = body ++ [q] := by
  induction h with
  | close => exact ⟨[], rfl⟩
  | @char c _ _ _ _ ih =>
    obtain ⟨body, rfl⟩ := ih
    exact ⟨c :: body, rfl⟩
  | @escaped c _ _ _ ih =>
    obtain ⟨body, rfl⟩ := ih
    exact ⟨'\\' :: c :: body, rfl⟩

namespace Closed

variable {s t : Text}

theorem append (hs : Closed s) (ht : Closed t) : Closed (s ++ t) := by
  induction hs with
  | nil => exact ht
  | plain hc _ ih => exact .plain hc ih
  | escaped hc _ ih => exact .escaped hc ih
  | quoted hq hinside _ ih =>
    rw [List.append_assoc]
    exact .quoted hq hinside ih
  | group hinside _ _ ih =>
    rw [List.append_assoc]
    exact .group hinside ih

theorem enclose (b : Bracket) (h : Closed s) : Closed (b.enclose s) := by
  have := Closed.group (b := b) h .nil
  rwa [List.append_nil] at this

theorem of_plain (h : ∀ c ∈ s, Token.isPlain c = true) : Closed s := by
  induction s with
  | nil => exact .nil
  | cons c s ih =>
    exact .plain (h c List.mem_cons_self) (ih fun c' hc' => h c' (List.mem_cons_of_mem c hc'))

/-! ## Blanks at the ends -/

/-- The characters that are not plain are few. -/
theorem mem_of_not_isPlain {c : Char} (h : Token.isPlain c = false) :
    c ∈ ['(', '[', '\x7b', ')', ']', '\x7d', '"', '\'', '\\'] := by
  simp only [List.mem_cons, List.not_mem_nil, or_false]
  grind [Token.isPlain, Bracket.ofOpener?, Bracket.ofCloser?, isQuote]

theorem isPlain_of_isBlank {c : Char} (h : isBlank c = true) : Token.isPlain c = true := by
  have hall : ['(', '[', '\x7b', ')', ']', '\x7d', '"', '\'', '\\'].all (!isBlank ·) = true := by
    decide
  refine eq_true_of_ne_false fun hc => ?_
  have hblank := List.all_eq_true.1 hall c (mem_of_not_isPlain hc)
  rw [h] at hblank
  cases hblank

theorem not_isPlain_opener (b : Bracket) : Token.isPlain b.opener = false := by
  cases b <;> decide

theorem not_isPlain_closer (b : Bracket) : Token.isPlain b.closer = false := by
  cases b <;> decide

theorem not_isPlain_of_isQuote {q : Char} (h : isQuote q = true) : Token.isPlain q = false := by
  simp [Token.isPlain, h]

theorem of_cons {c : Char} (hplain : Token.isPlain c = true) (h : Closed (c :: s)) :
    Closed s := by
  generalize hs : c :: s = t at h
  cases h with
  | nil => cases hs
  | plain _ h =>
    cases hs
    exact h
  | escaped =>
    cases hs
    cases hplain
  | quoted hq =>
    cases hs
    rw [not_isPlain_of_isQuote hq] at hplain
    cases hplain
  | @group b =>
    rw [(List.cons.inj hs).1, not_isPlain_opener] at hplain
    cases hplain

theorem exists_of_concat_eq {c e : Char} {body rest : Text} (hce : c ≠ e)
    (h : s ++ [c] = body ++ [e] ++ rest) : ∃ r, rest = r ++ [c] ∧ s = body ++ [e] ++ r := by
  rcases List.eq_nil_or_concat rest with rfl | ⟨r, c', rfl⟩
  · rw [List.append_nil] at h
    exact absurd (List.cons.inj (List.append_inj_right' h rfl)).1 hce
  · rw [List.concat_eq_append, ← List.append_assoc] at h
    obtain ⟨hs, hc⟩ := List.append_inj' h rfl
    exact ⟨r, by rw [hc, List.concat_eq_append], hs⟩

theorem of_concat {c : Char} (hc : isBlank c = true) (h : Closed (s ++ [c])) : Closed s := by
  have hplain := isPlain_of_isBlank hc
  generalize ht : s ++ [c] = t at h
  induction h generalizing s with
  | nil => simp at ht
  | @plain c' rest hc' hrest ih =>
    cases s with
    | nil => exact .nil
    | cons _ s =>
      cases ht
      exact .plain hc' (ih rfl)
  | @escaped c' rest hc' hrest ih =>
    -- The blank is not what the backslash takes along.
    match s, ht with
    | [_], ht =>
      cases ht
      rw [hc] at hc'
      cases hc'
    | _ :: _ :: s, ht =>
      cases ht
      exact .escaped hc' (ih rfl)
  | @quoted q inside rest hq hinside hrest ih =>
    obtain ⟨body, rfl⟩ := hinside.exists_eq_concat
    have hcq : c ≠ q := fun heq => by
      rw [heq, not_isPlain_of_isQuote hq] at hplain
      cases hplain
    rw [← List.cons_append] at ht
    obtain ⟨r, rfl, rfl⟩ := exists_of_concat_eq hcq ht
    exact .quoted hq hinside (ih rfl)
  | @group b inside rest hinside hrest _ ih =>
    have hcb : c ≠ b.closer := fun heq => by
      rw [heq, not_isPlain_closer] at hplain
      cases hplain
    -- The group ends in its closer, so the blank stands in what comes after it.
    obtain ⟨r, rfl, rfl⟩ := exists_of_concat_eq hcb ht
    exact .group hinside (ih rfl)

theorem of_append_left {left : Text} (hleft : ∀ c ∈ left, Token.isPlain c = true)
    (h : Closed (left ++ s)) : Closed s := by
  induction left with
  | nil => exact h
  | cons c left ih =>
    obtain ⟨hc, hleft⟩ := List.forall_mem_cons.1 hleft
    exact ih hleft (of_cons hc h)

theorem of_append_right {right : Text} (hright : ∀ c ∈ right, isBlank c = true)
    (h : Closed (s ++ right)) : Closed s := by
  induction right generalizing s with
  | nil => rwa [List.append_nil] at h
  | cons c right ih =>
    obtain ⟨hc, hright⟩ := List.forall_mem_cons.1 hright
    rw [List.append_cons] at h
    exact of_concat hc (ih hright h)

/-- A closed text without the blanks at its ends is closed. -/
theorem strip (h : Closed s) : Closed s.strip := by
  obtain ⟨left, right, hs, hleft, hright⟩ := Text.exists_eq_strip s
  rw [hs, List.append_assoc] at h
  exact of_append_right hright (of_append_left (fun c hc => isPlain_of_isBlank (hleft c hc)) h)

end Closed

/-! ## From the scan to the groups -/

/-- A text closes the groups of a stack, the innermost first, with closed texts in between. -/
def ClosesAll : List Bracket → Text → Prop
  | [], s => Closed s
  | b :: outer, s => ∃ inside rest, s = inside ++ b.closer :: rest ∧ Closed inside ∧
      ClosesAll outer rest

/-- Whether a character is no quote, no backslash and no semicolon. -/
def isMild (c : Char) : Bool :=
  !isQuote c && c ≠ '\\' && c ≠ ';'

theorem ne_backslash_of_isMild {c : Char} (h : isMild c = true) : c ≠ '\\' := by
  simp only [isMild, Bool.and_eq_true, decide_eq_true_eq] at h
  exact h.1.2

namespace ClosesAll

variable {stack : List Bracket} {s t : Text} {limit : Int}

theorem append (hs : Closed s) (ht : ClosesAll stack t) : ClosesAll stack (s ++ t) := by
  cases stack with
  | nil => exact hs.append ht
  | cons b outer =>
    obtain ⟨inside, rest, rfl, hinside, hrest⟩ := ht
    exact ⟨s ++ inside, rest, (List.append_assoc ..).symm, hs.append hinside, hrest⟩

theorem opener {b : Bracket} (h : ClosesAll (b :: stack) s) :
    ClosesAll stack (b.opener :: s) := by
  obtain ⟨inside, rest, rfl, hinside, hrest⟩ := h
  have := append (hinside.enclose b) hrest
  simpa [Bracket.enclose] using this

/-- One step of the scan back: what closes the groups after a character closes, together with
    the character, those before it. -/
theorem cons_of_strictStep? {c : Char} (hc : isMild c = true) {n : Nesting}
    (h : Nesting.strictStep? limit ⟨stack, none⟩ c = some n) :
    n.quote = none ∧ (ClosesAll n.stack s → ClosesAll stack (c :: s)) := by
  simp only [isMild, Bool.and_eq_true, Bool.not_eq_true', decide_eq_true_eq] at hc
  obtain ⟨⟨hquote, hbackslash⟩, _⟩ := hc
  simp only [Nesting.strictStep?, hquote, Bool.and_false, Bool.false_eq_true, if_false] at h
  split at h
  · next b _ hb =>
    obtain ⟨_, h⟩ := Option.ite_none_right_eq_some.1 h
    cases h
    rw [Bracket.ofOpener?_eq_some.1 hb]
    exact ⟨rfl, opener⟩
  · next b _ hb =>
    obtain ⟨hhead, h⟩ := Option.ite_none_right_eq_some.1 h
    cases h
    obtain ⟨outer, rfl⟩ := List.head?_eq_some_iff.1 hhead
    rw [Bracket.ofCloser?_eq_some.1 hb]
    exact ⟨rfl, fun hs => ⟨[], s, rfl, .nil, hs⟩⟩
  · next ho hcl =>
    cases h
    have hplain : Token.isPlain c = true := by
      simp [Token.isPlain, ho, hcl, hquote, hbackslash]
    exact ⟨rfl, append (.plain hplain .nil)⟩

/-- A text that the scan takes from a stack to the outside closes the stack. -/
theorem of_strictRun? (hs : ∀ c ∈ s, isMild c = true)
    (h : Nesting.strictRun? limit ⟨stack, none⟩ s = some .outside) : ClosesAll stack s := by
  induction s generalizing stack with
  | nil =>
    cases Option.some.inj h
    exact Closed.nil
  | cons c s ih =>
    obtain ⟨hc, hs⟩ := List.forall_mem_cons.1 hs
    rw [Nesting.strictRun?_cons (ne_backslash_of_isMild hc), Option.bind_eq_some_iff] at h
    obtain ⟨⟨stack', quote⟩, hn, h⟩ := h
    obtain ⟨rfl, hcons⟩ := cons_of_strictStep? hc hn
    exact hcons (ih hs h)

end ClosesAll

/-! ## Tame texts -/

/-- A text is closed, and has no quote, no backslash and no semicolon. -/
structure Tame (s : Text) : Prop where
  closed : Closed s
  mild : ∀ c ∈ s, isMild c = true

/-- Whether a text is seen to be tame by its balance. -/
def Text.isTame (s : Text) : Bool :=
  s.all isMild && s.isBalanced s.length

namespace Tame

variable {s t : Text}

theorem of_isTame (h : s.isTame = true) : Tame s := by
  rw [Text.isTame, Bool.and_eq_true, List.all_eq_true] at h
  have hcloses : ClosesAll [] s := .of_strictRun? h.1 (Text.isBalanced_iff.1 h.2)
  exact ⟨hcloses, h.1⟩

/-- The scan goes over a tame text into what follows it, if there is room for its groups. -/
theorem strictRun?_append {limit : Int} (hs : Tame s) {stack : List Bracket}
    (hlimit : (stack.length + s.length : Int) ≤ limit) (t : Text) :
    Nesting.strictRun? limit ⟨stack, none⟩ (s ++ t) = Nesting.strictRun? limit ⟨stack, none⟩ t := by
  obtain ⟨hclosed, hmild⟩ := hs
  induction hclosed generalizing stack t with
  | nil => rfl
  | @plain c rest hc _ ih =>
    rw [List.length_cons] at hlimit
    rw [List.cons_append, Nesting.strictRun?_cons (Nesting.plain_ne_backslash hc),
      Nesting.strictStep?_of_isPlain rfl hc, Option.bind_some]
    exact ih (by omega) t (List.forall_mem_cons.1 hmild).2
  | escaped => cases hmild '\\' List.mem_cons_self
  | @quoted q _ _ hq =>
    have := hmild q List.mem_cons_self
    simp [isMild, hq] at this
  | @group b inside rest _ _ ihinside ih =>
    obtain ⟨hgroup, hrest⟩ := List.forall_mem_append.1 hmild
    have hinside : ∀ c ∈ inside, isMild c = true := fun c hc =>
      hgroup c (List.mem_append_left _ (.tail _ hc))
    simp only [Bracket.enclose, List.length_append, List.length_singleton] at hlimit
    have hroom : (stack.length + 1 : Int) ≤ limit := by omega
    have hs : b.enclose inside ++ rest ++ t = b.opener :: (inside ++ b.closer :: (rest ++ t)) := by
      simp [Bracket.enclose]
    rw [hs, Nesting.strictRun?_cons (Nesting.opener_ne_backslash b),
      Nesting.strictStep?_opener hroom, Option.bind_some,
      ihinside (by rw [List.length_cons]; omega) _ hinside,
      Nesting.strictRun?_cons (Nesting.closer_ne_backslash b), Nesting.strictStep?_closer,
      List.head?_cons, if_pos rfl, List.tail_cons, Option.bind_some]
    exact ih (by omega) t hrest

theorem isTame (h : Tame s) : s.isTame = true := by
  have hrun : Nesting.strictRun? s.length .outside (s ++ []) = some .outside :=
    h.strictRun?_append (by simp) []
  rw [List.append_nil] at hrun
  rw [Text.isTame, List.all_eq_true.2 h.mild, Bool.true_and]
  exact Text.isBalanced_iff.2 hrun

theorem append (hs : Tame s) (ht : Tame t) : Tame (s ++ t) :=
  ⟨hs.closed.append ht.closed, List.forall_mem_append.2 ⟨hs.mild, ht.mild⟩⟩

theorem enclose (b : Bracket) (h : Tame s) : Tame (b.enclose s) := by
  refine ⟨h.closed.enclose b, List.forall_mem_append.2 ⟨List.forall_mem_cons.2 ⟨?_, h.mild⟩, ?_⟩⟩
  · cases b <;> decide
  · rw [List.forall_mem_singleton]
    cases b <;> decide

end Tame

end UtilityCss
