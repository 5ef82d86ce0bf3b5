import UtilityCss.Proofs.Bracket.Division

/-!
# The segments of a text

What a text is cut into tells of its balance, and the cuts do not see what stands behind the last
of them.

* `Text.segments_of_mem`: a segment is not divided again;
* `Text.isBalanced_of_mem_segments`, `Text.isBalanced_iff_segments`: the segments of a balanced text
  are balanced, and where the separator has no meaning of its own, the text is if they are;
* `Text.exists_front`: in front of its last segment a text is cut as it would be in front of any
  other text;
* `Text.segments_cons`, `Text.segments_concat`, `Text.isBalanced_cons`, `Text.isBalanced_concat`:
  a character without a meaning of its own may stand at either end;
* `Text.isBalanced_mono`: a larger limit on the open groups refuses less.

Backslashes may stand anywhere here, also at the end.
-/

namespace UtilityCss

namespace Nesting

variable {separator : Char} {limit limit' : Int}

/-! ## Balance, part by part -/

theorem divides_iff {n : Nesting} {c : Char} :
    n.divides separator c = true ↔
      n = outside ∧ Bracket.ofOpener? c = none ∧ c = separator := by
  simp [divides, and_assoc]

/-- Outside every group the strict scan passes over all but the brackets. -/
theorem strictStep?_outside {c : Char} (ho : Bracket.ofOpener? c = none) :
    strictStep? limit outside c
      = if Bracket.ofCloser? c = none then some outside else none := by
  cases hc : Bracket.ofCloser? c with
  | none => simp [strictStep?, outside, ho, hc]
  | some b => simp [strictStep?, outside, ho, hc]

/-- A scan comes back to the outside exactly if it does so over each part. A closer that divides a
    text is one that closes nothing. -/
theorem strictRun?_divide (n : Nesting) (s : Text) :
    strictRun? limit n s = some outside ↔
      strictRun? limit n (divide separator n s).1 = some outside ∧
        ∀ part ∈ (divide separator n s).2,
          Bracket.ofCloser? separator = none ∧ strictRun? limit outside part = some outside := by
  fun_induction divide separator n s with
  | case1 n => simp
  | case2 n => simp
  | case3 n c rest part parts h ih =>
    rw [h] at ih
    rw [strictRun?, strictRun?]
    exact ih
  | case4 n c rest hlone hpair hd part parts h ih =>
    rw [h] at ih
    obtain ⟨rfl, ho, rfl⟩ := divides_iff.1 hd
    rw [strictRun?_cons (ne_backslash hlone hpair), strictStep?_outside ho, List.forall_mem_cons]
    split
    · next hcloser =>
      rw [Option.bind_some, ih]
      exact ⟨fun hparts => ⟨rfl, ⟨hcloser, hparts.1⟩, hparts.2⟩,
        fun hparts => ⟨hparts.2.1.2, hparts.2.2⟩⟩
    · next hcloser => simp [hcloser]
  | case5 n c rest hlone hpair hd part parts h ih =>
    rw [h] at ih
    have hc := ne_backslash hlone hpair
    rw [strictRun?_cons hc, strictRun?_cons hc]
    -- The lenient scan goes the way of the strict one, if that goes on at all.
    cases hs : n.strictStep? limit c with
    | none => simp
    | some n' =>
      rw [step_of_strictStep? hs] at ih
      exact ih

/-! ## The parts are undivided -/

/-- The first part is not divided again, and neither are those after it, which begin outside every
    group. -/
theorem divide_parts (n : Nesting) (s : Text) :
    divide separator n (divide separator n s).1 = ((divide separator n s).1, []) ∧
      ∀ part ∈ (divide separator n s).2, divide separator outside part = (part, []) := by
  fun_induction divide separator n s with
  | case1 n => simp [divide]
  | case2 n => simp [divide]
  | case3 n c rest part parts h ih =>
    rw [h] at ih
    refine ⟨?_, ih.2⟩
    rw [divide, ih.1]
  | case4 n c rest hlone hpair hd part parts h ih =>
    rw [h] at ih
    obtain ⟨rfl, _, _⟩ := divides_iff.1 hd
    exact ⟨rfl, List.forall_mem_cons.2 ih⟩
  | case5 n c rest hlone hpair hd part parts h ih =>
    rw [h] at ih
    refine ⟨?_, ih.2⟩
    rw [divide_cons (ne_backslash hlone hpair), if_neg hd, ih.1]

/-! ## The last part -/

/-- What stands in front of the last part is cut in the same way in front of any text. -/
theorem divide_front {n : Nesting} {s last : Text} {parts : List Text}
    (h : (divide separator n s).2 = parts ++ [last]) :
    ∃ front, s = front ++ last ∧
      ∀ t, divide separator n (front ++ t)
        = ((divide separator n s).1, parts ++ t.segments separator) := by
  fun_induction divide separator n s generalizing parts with
  | case1 n => cases List.append_ne_nil_of_right_ne_nil parts (List.cons_ne_nil last []) h.symm
  | case2 n => cases List.append_ne_nil_of_right_ne_nil parts (List.cons_ne_nil last []) h.symm
  | case3 n c rest part parts' hdiv ih =>
    rw [hdiv] at ih
    obtain ⟨front, rfl, hfront⟩ := ih h
    refine ⟨'\\' :: c :: front, rfl, fun t => ?_⟩
    rw [List.cons_append, List.cons_append, divide, hfront]
  | case4 n c rest hlone hpair hd part parts' hdiv ih =>
    have hc := ne_backslash hlone hpair
    obtain ⟨rfl, _, _⟩ := divides_iff.1 hd
    have hj := join_divide separator outside rest
    rw [hdiv] at ih hj
    rcases List.cons_eq_append_iff.1 h with ⟨rfl, hparts⟩ | ⟨parts, rfl, hparts⟩
    · -- The last part begins at this very division.
      cases hparts
      have hrest : last = rest := by rwa [Text.join_singleton] at hj
      refine ⟨[c], by rw [hrest, List.singleton_append], fun t => ?_⟩
      rw [List.singleton_append, divide_cons hc, if_pos hd]
      rfl
    · obtain ⟨front, rfl, hfront⟩ := ih hparts
      refine ⟨c :: front, rfl, fun t => ?_⟩
      rw [List.cons_append, divide_cons hc, if_pos hd, hfront]
      rfl
  | case5 n c rest hlone hpair hd part parts' hdiv ih =>
    have hc := ne_backslash hlone hpair
    rw [hdiv] at ih
    obtain ⟨front, rfl, hfront⟩ := ih h
    refine ⟨c :: front, rfl, fun t => ?_⟩
    rw [List.cons_append, divide_cons hc, if_neg hd, hfront]

/-! ## Plain characters at the ends -/

theorem divides_eq_false {c : Char} (hc : c ≠ separator) (n : Nesting) :
    n.divides separator c = false := by
  rw [← Bool.not_eq_true, divides_iff]
  exact fun h => hc h.2.2

theorem divide_plain_cons {c : Char} (hp : Token.isPlain c = true) (hc : c ≠ separator)
    (s : Text) :
    divide separator outside (c :: s)
      = (c :: (divide separator outside s).1, (divide separator outside s).2) := by
  rw [divide_cons (plain_ne_backslash hp), divides_eq_false hc, step_of_isPlain rfl hp]
  rfl

/-- A plain character behind an undivided text does not divide it. -/
theorem divide_concat {c : Char} (hp : Token.isPlain c = true) (hc : c ≠ separator) {n : Nesting}
    {s : Text} (h : (divide separator n s).2 = []) :
    divide separator n (s ++ [c]) = (s ++ [c], []) := by
  fun_induction divide separator n s with
  | case1 n =>
    rw [List.nil_append, divide_cons (plain_ne_backslash hp), divides_eq_false hc]
    rfl
  | case2 n => rfl
  | case3 n c' rest part parts hdiv ih =>
    rw [hdiv] at ih
    rw [List.cons_append, List.cons_append, divide, ih h]
  | case4 => cases h
  | case5 n c' rest hlone hpair hd part parts hdiv ih =>
    rw [hdiv] at ih
    rw [List.cons_append, divide_cons (ne_backslash hlone hpair), if_neg hd, ih h]

theorem strictRun?_concat {c : Char} (hp : Token.isPlain c = true) {n : Nesting}
    (hn : n.quote.all isQuote = true) (s : Text) :
    strictRun? limit n (s ++ [c]) = strictRun? limit n s := by
  fun_induction strictRun? limit n s with
  | case1 n =>
    rw [List.nil_append, strictRun?_cons (plain_ne_backslash hp), strictStep?_of_isPlain hn hp]
    rfl
  | case2 n => rfl
  | case3 n c' rest ih => exact ih hn
  | case4 n c' rest hlone hpair ih =>
    rw [List.cons_append, strictRun?_cons (ne_backslash hlone hpair)]
    cases hs : n.strictStep? limit c' with
    | none => rfl
    | some n' => exact ih n' (all_isQuote_of_strictStep? hn hs)

/-! ## Limits -/

theorem strictStep?_mono (h : limit ≤ limit') {n n' : Nesting} {c : Char}
    (hs : n.strictStep? limit c = some n') : n.strictStep? limit' c = some n' := by
  unfold strictStep? at hs ⊢
  split at hs
  · exact hs
  · split at hs
    · next hq => rwa [if_pos hq]
    · next hq =>
      rw [if_neg hq]
      split at hs
      · obtain ⟨hroom, hs⟩ := Option.ite_none_right_eq_some.1 hs
        rw [if_pos (Int.le_trans hroom h), hs]
      · exact hs
      · exact hs

theorem strictRun?_mono (h : limit ≤ limit') {n n' : Nesting} {s : Text}
    (hs : strictRun? limit n s = some n') : strictRun? limit' n s = some n' := by
  fun_induction strictRun? limit n s with
  | case1 n => exact hs
  | case2 n => exact hs
  | case3 n c rest ih => exact ih hs
  | case4 n c rest hlone hpair ih =>
    obtain ⟨n₁, hn₁, hs⟩ := Option.bind_eq_some_iff.1 hs
    rw [strictRun?_cons (ne_backslash hlone hpair), strictStep?_mono h hn₁]
    exact ih n₁ hs

end Nesting

namespace Text

variable {separator : Char} {limit limit' : Int} {s part first last : Text} {parts : List Text}

/-- A segment is not divided again. -/
theorem segments_of_mem (h : part ∈ s.segments separator) : part.segments separator = [part] := by
  obtain ⟨hfirst, hrest⟩ := @Nesting.divide_parts separator .outside s
  rcases List.mem_cons.1 h with rfl | h
  · rw [segments, hfirst]
  · rw [segments, hrest part h]

/-- The segments of a balanced text are balanced, whatever the separator is. -/
theorem isBalanced_of_mem_segments (hs : s.isBalanced limit = true)
    (h : part ∈ s.segments separator) : part.isBalanced limit = true := by
  obtain ⟨hfirst, hrest⟩ := (@Nesting.strictRun?_divide separator limit .outside s).1
    (isBalanced_iff.1 hs)
  rcases List.mem_cons.1 h with rfl | h
  · exact isBalanced_iff.2 hfirst
  · exact isBalanced_iff.2 (hrest part h).2

/-- A text is balanced exactly if each of its segments is. -/
theorem isBalanced_iff_segments (hp : Token.isPlain separator = true) :
    s.isBalanced limit = true ↔ ∀ part ∈ s.segments separator, part.isBalanced limit = true := by
  have hcloser : Bracket.ofCloser? separator = none := by
    simp only [Token.isPlain, Bool.and_eq_true, Option.isNone_iff_eq_none] at hp
    exact hp.1.1.2
  simp only [isBalanced_iff, segments, List.forall_mem_cons, hcloser, true_and,
    @Nesting.strictRun?_divide separator limit .outside s]

theorem isBalanced_mono (h : limit ≤ limit') (hs : s.isBalanced limit = true) :
    s.isBalanced limit' = true :=
  isBalanced_iff.2 (Nesting.strictRun?_mono h (isBalanced_iff.1 hs))

theorem isBalanced_cons {c : Char} (hc : Token.isPlain c = true) :
    isBalanced (c :: s) limit = s.isBalanced limit := by
  rw [isBalanced, Nesting.strictRun?_cons (Nesting.plain_ne_backslash hc),
    Nesting.strictStep?_of_isPlain rfl hc]
  rfl

theorem isBalanced_concat {c : Char} (hc : Token.isPlain c = true) :
    isBalanced (s ++ [c]) limit = s.isBalanced limit := by
  rw [isBalanced, Nesting.strictRun?_concat hc rfl]
  rfl

/-- In front of its last segment a text is cut as it would be in front of any other text. -/
theorem exists_front (h : s.segments separator = parts ++ [last]) :
    ∃ front, s = front ++ last ∧
      ∀ t, (front ++ t).segments separator = parts ++ t.segments separator := by
  have hj := join_segments s separator
  rw [h] at hj
  rw [segments] at h
  rcases List.cons_eq_append_iff.1 h with ⟨rfl, _⟩ | ⟨parts, rfl, hparts⟩
  · rw [List.nil_append, join_singleton] at hj
    exact ⟨[], hj.symm, fun _ => rfl⟩
  · obtain ⟨front, hs, hfront⟩ := Nesting.divide_front hparts
    refine ⟨front, hs, fun t => ?_⟩
    rw [segments, hfront]
    rfl

theorem exists_segments_eq_concat (s : Text) (separator : Char) :
    ∃ parts last, s.segments separator = parts ++ [last] :=
  ⟨_, _, (List.dropLast_concat_getLast (List.cons_ne_nil _ _)).symm⟩

theorem ne_nil_of_segments (h : s.segments separator = parts ++ [last]) (hl : last ≠ []) :
    s ≠ [] := by
  obtain ⟨front, rfl, _⟩ := exists_front h
  exact List.append_ne_nil_of_right_ne_nil front hl

/-- The last segment is not divided. -/
theorem segments_last (h : s.segments separator = parts ++ [last]) :
    last.segments separator = [last] :=
  segments_of_mem (h ▸ List.mem_concat_self)

/-- A plain character in front goes into the first segment. -/
theorem segments_cons {c : Char} (hp : Token.isPlain c = true) (hc : c ≠ separator)
    (h : s.segments separator = first :: parts) :
    segments (c :: s) separator = (c :: first) :: parts := by
  obtain ⟨hfirst, hparts⟩ := List.cons.inj h
  rw [segments, Nesting.divide_plain_cons hp hc, ← hfirst, ← hparts]

/-- A plain character at the end goes into the last segment. -/
theorem segments_concat {c : Char} (hp : Token.isPlain c = true) (hc : c ≠ separator)
    (h : s.segments separator = parts ++ [last]) :
    (s ++ [c]).segments separator = parts ++ [last ++ [c]] := by
  have hlast : (Nesting.divide separator .outside last).2 = [] :=
    (List.cons.inj (segments_last h)).2
  obtain ⟨front, rfl, hfront⟩ := exists_front h
  rw [List.append_assoc, hfront, segments, Nesting.divide_concat hp hc hlast]

end Text

end UtilityCss
