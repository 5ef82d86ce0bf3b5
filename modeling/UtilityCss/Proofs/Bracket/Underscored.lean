import UtilityCss.Proofs.Bracket.Signs
import UtilityCss.Variant.Basic

/-!
# Underscores for spaces

A text with underscores for its spaces is read by all scans as the text itself: neither a space
nor an underscore opens, closes, quotes or escapes anything. Its tokens and its parts are those of
the text with underscores for their spaces, and it is balanced exactly if the text is.

* `Token.tokenize_underscored`: the tokens;
* `Text.segments_underscored`: the parts between separators;
* `Text.isBalanced_underscored`: the balance.
-/

namespace UtilityCss

@[simp] theorem underscored_nil : underscored [] = [] := rfl

theorem underscored_cons (c : Char) (s : Text) :
    underscored (c :: s) = (if c = ' ' then '_' else c) :: underscored s := rfl

theorem underscored_cons_of_ne {c : Char} (hc : c ≠ ' ') (s : Text) :
    underscored (c :: s) = c :: underscored s := by
  rw [underscored_cons, if_neg hc]

@[simp] theorem underscored_append (s t : Text) :
    underscored (s ++ t) = underscored s ++ underscored t := List.map_append

@[simp] theorem length_underscored (s : Text) : (underscored s).length = s.length :=
  List.length_map _

@[simp] theorem underscored_eq_nil {s : Text} : underscored s = [] ↔ s = [] := List.map_eq_nil_iff

/-- Only spaces and underscores are written as underscores, and every other sign as itself. -/
theorem ite_space_eq_iff {c sign : Char} (hspace : sign ≠ ' ') (hunderscore : sign ≠ '_') :
    (if c = ' ' then '_' else c) = sign ↔ c = sign := by
  split
  · next hc => exact iff_of_false hunderscore.symm fun h => hspace (h.symm.trans hc)
  · rfl

theorem ite_space_ne_newline {c : Char} (hc : c ≠ '\n') : (if c = ' ' then '_' else c) ≠ '\n' :=
  mt (ite_space_eq_iff (by decide) (by decide)).1 hc

theorem ite_space_ne_backslash {c : Char} (hc : c ≠ '\\') : (if c = ' ' then '_' else c) ≠ '\\' :=
  mt (ite_space_eq_iff (by decide) (by decide)).1 hc

theorem underscored_eq_self {s : Text} : underscored s = s ↔ ' ' ∉ s := by
  induction s with
  | nil => simp
  | cons c s ih =>
    rw [underscored_cons, List.cons.injEq, ih, List.mem_cons, not_or]
    refine and_congr_left fun _ => ?_
    split
    · next hc => simp [hc]
    · next hc => simp [Ne.symm hc]

/-! ## Tokens -/

namespace Token

theorem takeRun_underscored (s : Text) :
    takeRun (underscored s) = (underscored (takeRun s).1, underscored (takeRun s).2) := by
  fun_induction takeRun s with
  | case1 => rfl
  | case2 => rfl
  | case3 c rest hc part after h ih =>
    rw [h] at ih
    rw [underscored_cons_of_ne (by decide), underscored_cons,
      takeRun_escaped (ite_space_ne_newline hc), ih]
    rfl
  | case4 c rest _ hc part after h ih =>
    rw [h] at ih
    have hu : isPlain (if c = ' ' then '_' else c) = true := by
      split
      · rfl
      · exact hc
    rw [underscored_cons, takeRun_cons hu, ih]
    rfl
  | case5 c rest hne hc =>
    have hu : c ≠ ' ' := by
      rintro rfl
      exact hc rfl
    rw [underscored_cons_of_ne hu, takeRun_stop (eq_false_of_ne_true hc) fun hbackslash => ?_]
    · rw [underscored_nil]
    · cases rest with
      | nil => rfl
      | cons c' rest => exact absurd rfl (hne c' rest hbackslash)

theorem takeQuoted_underscored {q : Char} (hq : isQuote q = true) (s : Text) :
    takeQuoted q (underscored s)
      = (takeQuoted q s).map fun p => (underscored p.1, underscored p.2) := by
  have hspace {c : Char} : (if c = ' ' then '_' else c) = q ↔ c = q := by
    refine ite_space_eq_iff ?_ ?_ <;>
    · rintro rfl
      cases hq
  fun_induction takeQuoted q s with
  | case1 => rfl
  | case2 => rfl
  | case3 c rest hc hrest ih =>
    rw [underscored_cons_of_ne (by decide), underscored_cons,
      takeQuoted_escaped (ite_space_ne_newline hc), ih, hrest]
    rfl
  | case4 c rest hc part after hrest ih =>
    rw [underscored_cons_of_ne (by decide), underscored_cons,
      takeQuoted_escaped (ite_space_ne_newline hc), ih, hrest]
    rfl
  | case5 rest =>
    rw [underscored_cons, hspace.2 rfl, takeQuoted_close hq]
    simp [underscored_cons, hspace.2 rfl]
  | case6 rest hne hq' =>
    cases rest with
    | nil =>
      rw [underscored_cons_of_ne (by decide), underscored_nil, takeQuoted, if_neg hq', if_pos rfl]
      · rfl
      · rintro c rest _ ⟨⟩
    | cons c rest => exact absurd rfl (hne c rest rfl)
  | case7 c rest _ hcq hbackslash hrest ih =>
    rw [underscored_cons, takeQuoted_cons (mt hspace.1 hcq) (ite_space_ne_backslash hbackslash),
      ih, hrest]
    rfl
  | case8 c rest _ hcq hbackslash part after hrest ih =>
    rw [underscored_cons, takeQuoted_cons (mt hspace.1 hcq) (ite_space_ne_backslash hbackslash),
      ih, hrest]
    rfl

/-- A token with underscores for its spaces. -/
def underscored : Token → Token
  | run raw => run (UtilityCss.underscored raw)
  | quoted raw => quoted (UtilityCss.underscored raw)
  | t => t

theorem next?_underscored (s : Text) :
    next? (UtilityCss.underscored s)
      = (next? s).map fun p => (p.1.underscored, UtilityCss.underscored p.2) := by
  cases s with
  | nil => rfl
  | cons c rest =>
    have hsign : Bracket.ofOpener? (if c = ' ' then '_' else c) = Bracket.ofOpener? c ∧
        Bracket.ofCloser? (if c = ' ' then '_' else c) = Bracket.ofCloser? c ∧
        isQuote (if c = ' ' then '_' else c) = isQuote c := by
      split
      · next hc =>
        rw [hc]
        exact ⟨rfl, rfl, rfl⟩
      · exact ⟨rfl, rfl, rfl⟩
    have hrun := takeRun_underscored (c :: rest)
    rw [underscored_cons] at hrun ⊢
    rw [next?, next?, hsign.1, hsign.2.1, hsign.2.2, hrun]
    split
    · rfl
    · rfl
    · split
      · next hq =>
        have hc : c ≠ ' ' := by
          rintro rfl
          cases hq
        rw [if_neg hc, takeQuoted_underscored hq]
        cases takeQuoted c rest with
        | none => rfl
        | some p => rw [Option.map_some, Option.map_some, underscored, underscored_cons_of_ne hc]
      · obtain ⟨part, after⟩ := takeRun (c :: rest)
        cases part <;> rfl

theorem tokenize_underscored (s : Text) : tokenize (UtilityCss.underscored s)
    = ((tokenize s).1.map underscored, UtilityCss.underscored (tokenize s).2) := by
  fun_induction tokenize s with
  | case1 s h =>
    have hnext := next?_underscored s
    rw [h] at hnext
    rw [tokenize_of_next?_eq_none hnext]
    rfl
  | case2 s t after h _ ts rest he ih =>
    have hnext := next?_underscored s
    rw [h] at hnext
    rw [he] at ih
    rw [tokenize_of_next? hnext, ih]
    rfl

end Token

/-! ## Parts and balance -/

namespace Nesting

variable {n : Nesting} {limit : Int} {separator : Char}

theorem strictRun?_underscored (hn : n.quote.all isQuote = true) (s : Text) :
    strictRun? limit n (underscored s) = strictRun? limit n s := by
  fun_induction strictRun? limit n s with
  | case1 => rfl
  | case2 => rfl
  | case3 n c rest ih =>
    rw [underscored_cons_of_ne (by decide), underscored_cons, strictRun?]
    exact ih hn
  | case4 n c rest hlone hpair ih =>
    have hu := ite_space_ne_backslash (ne_backslash hlone hpair)
    have hstep : n.strictStep? limit (if c = ' ' then '_' else c) = n.strictStep? limit c := by
      split
      · next hc =>
        rw [hc, strictStep?_of_isPlain hn (by decide), strictStep?_of_isPlain hn (by decide)]
      · rfl
    rw [underscored_cons, strictRun?_cons hu, hstep]
    cases h : n.strictStep? limit c with
    | none => rfl
    | some n' => exact ih n' (all_isQuote_of_strictStep? hn h)

theorem divide_underscored_cons (hspace : separator ≠ ' ') (hunderscore : separator ≠ '_')
    (hn : n.quote.all isQuote = true) {c : Char} (hc : c ≠ '\\') (rest : Text) :
    divide separator n (underscored (c :: rest))
      = if n.divides separator c then
          ([], (divide separator n (underscored rest)).1 ::
            (divide separator n (underscored rest)).2)
        else
          ((if c = ' ' then '_' else c) :: (divide separator (n.step c) (underscored rest)).1,
            (divide separator (n.step c) (underscored rest)).2) := by
  have hdivides : n.divides separator (if c = ' ' then '_' else c) = n.divides separator c := by
    split
    · next hc => simp [divides, hc, hspace.symm, hunderscore.symm]
    · rfl
  have hstep : n.step (if c = ' ' then '_' else c) = n.step c := by
    split
    · next hc => rw [hc, step_of_isPlain hn (by decide), step_of_isPlain hn (by decide)]
    · rfl
  rw [underscored_cons, divide_cons (ite_space_ne_backslash hc), hdivides, hstep]

theorem divide_underscored (hspace : separator ≠ ' ') (hunderscore : separator ≠ '_')
    (hn : n.quote.all isQuote = true) (s : Text) : divide separator n (underscored s)
      = (underscored (divide separator n s).1, (divide separator n s).2.map underscored) := by
  fun_induction divide separator n s with
  | case1 => rfl
  | case2 => rfl
  | case3 n c rest part parts h ih =>
    rw [underscored_cons_of_ne (by decide), underscored_cons, divide, ih hn, h]
    rfl
  | case4 n c rest hlone hpair hd part parts h ih =>
    rw [divide_underscored_cons hspace hunderscore hn (ne_backslash hlone hpair), if_pos hd, ih hn,
      h]
    rfl
  | case5 n c rest hlone hpair hd part parts h ih =>
    rw [divide_underscored_cons hspace hunderscore hn (ne_backslash hlone hpair), if_neg hd,
      ih (all_isQuote_step hn c), h]
    rfl

end Nesting

theorem Text.segments_underscored {separator : Char} (hspace : separator ≠ ' ')
    (hunderscore : separator ≠ '_') (s : Text) :
    (underscored s).segments separator = (s.segments separator).map underscored := by
  rw [segments, Nesting.divide_underscored hspace hunderscore rfl]
  rfl

theorem Text.isBalanced_underscored (s : Text) (limit : Int) :
    (underscored s).isBalanced limit = s.isBalanced limit := by
  rw [isBalanced, Nesting.strictRun?_underscored rfl]
  rfl

/-! ## Runs that end in `url` -/

theorem suffix_cons_of_not_mem {c : Char} {s t : Text} (h : c ∉ t) : t <:+ c :: s ↔ t <:+ s := by
  rw [List.suffix_cons_iff]
  exact or_iff_right fun he => h (he ▸ List.mem_cons_self)

theorem suffix_underscored {s t : Text} (hunderscore : '_' ∉ t) (hspace : ' ' ∉ t) :
    t <:+ underscored s ↔ t <:+ s := by
  induction s with
  | nil => rfl
  | cons c s ih =>
    rw [underscored_cons]
    by_cases hc : c = ' '
    · rw [if_pos hc, hc, suffix_cons_of_not_mem hunderscore, suffix_cons_of_not_mem hspace, ih]
    · rw [if_neg hc, List.suffix_cons_iff, List.suffix_cons_iff, ih]
      refine or_congr_left ⟨?_, ?_⟩
      · rintro rfl
        have hs : ' ' ∉ s := fun hm =>
          hunderscore (.tail _ (List.mem_map.2 ⟨' ', hm, rfl⟩))
        rw [underscored_eq_self.2 hs]
      · rintro rfl
        rw [underscored_eq_self.2 fun hm => hspace (.tail _ hm)]

/-- No other character has the lower case of one of these signs. -/
theorem lowered_eq_iff {c sign : Char} (hsign : sign ∈ ['_', ' ', '\\']) :
    lowered c = sign ↔ c = sign := by
  have hascii : ∀ n < 128, lowered (Char.ofNat n) = sign ↔ Char.ofNat n = sign := by
    simp only [List.mem_cons, List.not_mem_nil, or_false] at hsign
    rcases hsign with rfl | rfl | rfl <;> decide
  have hlow : sign.toNat < 128 ∧ 'k' ≠ sign := by
    simp only [List.mem_cons, List.not_mem_nil, or_false] at hsign
    rcases hsign with rfl | rfl | rfl <;> decide
  by_cases hc : c.toNat < 128
  · exact of_toNat_lt (P := fun c => lowered c = sign ↔ c = sign) hascii hc
  · -- Beyond ASCII, only the Kelvin sign is not its own lower case.
    have hne : c ≠ sign := by
      rintro rfl
      exact hc hlow.1
    refine iff_of_false ?_ hne
    have hcapital : ¬(c.val ≥ 'A'.val ∧ c.val ≤ 'Z'.val) := by
      rintro ⟨_, h⟩
      exact hc (Nat.lt_of_le_of_lt (UInt32.le_iff_toNat_le.1 h) (by decide))
    have htoLower : c.toLower = c := dif_neg hcapital
    rw [lowered, htoLower]
    split
    · exact hlow.2
    · exact hne

theorem Text.lower_cons (c : Char) (s : Text) : lower (c :: s) = lowered c :: lower s := rfl

theorem lower_underscored (s : Text) : Text.lower (underscored s) = underscored (Text.lower s) := by
  induction s with
  | nil => rfl
  | cons c s ih =>
    rw [underscored_cons, Text.lower_cons, Text.lower_cons, underscored_cons, ih]
    by_cases hc : c = ' '
    · rw [if_pos hc, if_pos ((lowered_eq_iff (by decide)).2 hc)]
      rfl
    · rw [if_neg hc, if_neg (mt (lowered_eq_iff (by decide)).1 hc)]

/-- Underscores do not change whether a text ends in `url`. -/
theorem endsInUrl_underscored (s : Text) :
    (Text.lower (underscored s)).endsWith "url" = (Text.lower s).endsWith "url" := by
  rw [Bool.eq_iff_iff, Text.endsWith, Text.endsWith, List.isSuffixOf_iff_suffix,
    List.isSuffixOf_iff_suffix, lower_underscored]
  exact suffix_underscored (by decide) (by decide)

end UtilityCss
