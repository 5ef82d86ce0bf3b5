import UtilityCss.Proofs.Bracket.Segments
import UtilityCss.Proofs.Candidate.Spelling

/-!
# Reading the parts of a class

What each step of reading gives back, told by how its result is spelled.

* `run_readVariants_eq_some`: segments give their variants one for one;
* `takeMark_cases`, `takeFinalMark_cases`: a mark is taken off, or there is none;
* `Outline.ofText?_eq_some`: the pieces of a class are what it is cut into (`Outline.Cut`);
* `splitTypeHint_eq`, `Value.ofText?_eq_some`, `Modifier.ofText?_eq_some`: a text is read as
  what it spells, and as nothing else;
* `splitModifier?_eq_some`, `Outline.utility?_eq_some`: a base falls into a front and a
  modifier, and the front into a name and a value.
-/

namespace UtilityCss

theorem run_readVariants_cons (read : Text → Option Variant) (s : Text) (segments : List Text) :
    Id.run (readVariants (fun s => pure (read s)) (s :: segments))
      = if s = [] then none
        else (read s).bind fun v =>
          (Id.run (readVariants (fun s => pure (read s)) segments)).map (v :: ·) := by
  rw [readVariants]
  cases s with
  | nil => rfl
  | cons c s =>
    cases h : read (c :: s) with
    | none => simp
    | some v => simp

/-- Read without a memory, the segments give their variants one for one. -/
theorem run_readVariants_eq_some {read : Text → Option Variant} {segments : List Text}
    {variants : List Variant} :
    Id.run (readVariants (fun s => pure (read s)) segments) = some variants ↔
      (∀ s ∈ segments, s ≠ []) ∧ segments.map read = variants.map some := by
  induction segments generalizing variants with
  | nil => cases variants <;> simp [readVariants]
  | cons s segments ih =>
    rw [run_readVariants_cons]
    by_cases hs : s = []
    · simp [hs]
    · rw [if_neg hs, Option.bind_eq_some_iff]
      simp only [Option.map_eq_some_iff, ih]
      constructor
      · rintro ⟨v, hv, vs, ⟨hne, hvs⟩, rfl⟩
        exact ⟨List.forall_mem_cons.2 ⟨hs, hne⟩, by simp [hv, hvs]⟩
      · rintro ⟨hne, hvs⟩
        obtain ⟨v, vs, rfl, hv, hvs⟩ := List.map_eq_cons_iff.1 hvs.symm
        exact ⟨v, hv.symm, vs, ⟨(List.forall_mem_cons.1 hne).2, hvs.symm⟩, rfl⟩

variable {settings : Settings} {table : UtilityTable} {read : Text → Option Variant}

/-- A class is read if it has pieces, its segments are variants, and its base completes them. -/
theorem Candidate.ofText?_eq_some {raw : Text} {c : Candidate} :
    ofText? settings table read raw = some c ↔
      ∃ o variants, Outline.ofText? settings raw = some o ∧ (∀ s ∈ o.segments, s ≠ []) ∧
        o.segments.map read = variants.map some ∧ o.complete? table variants = some c := by
  have h : ofText? settings table read raw = (Outline.ofText? settings raw).bind fun o =>
      (Id.run (readVariants (fun s => pure (read s)) o.segments)).bind (o.complete? table) := by
    unfold ofText? ofTextWith
    cases Outline.ofText? settings raw <;> rfl
  simp only [h, Option.bind_eq_some_iff, run_readVariants_eq_some]
  constructor
  · rintro ⟨o, ho, variants, ⟨hne, hv⟩, hc⟩
    exact ⟨o, variants, ho, hne, hv, hc⟩
  · rintro ⟨o, variants, ho, hne, hv, hc⟩
    exact ⟨o, ho, variants, ⟨hne, hv⟩, hc⟩

/-! ## Characters of names -/

/-- Whether a character may stand in a root or in a named value. -/
def isNameChar (c : Char) : Bool :=
  isAlphanumericOr ['_', '.', '%', '-'] c

/-- Whether a character has no meaning in front of a base or inside it, except for the slash and
    the hyphen. -/
def isInert (c : Char) : Bool :=
  Token.isPlain c && !isBlank c && c ≠ ':' && c ≠ '!'

theorem toNat_lt_of_isNameChar {c : Char} (h : isNameChar c = true) : c.toNat < 128 := by
  rcases Bool.or_eq_true_iff.1 h with h | h
  · exact toNat_lt_of_isAlphanum h
  · have hsigns : ['_', '.', '%', '-'].all (·.toNat < 128) = true := by decide
    exact of_decide_eq_true (List.all_eq_true.1 hsigns c (List.contains_iff_mem.1 h))

/-- The characters of names are ASCII, so there are few to look at. -/
theorem of_isNameChar {P : Char → Prop}
    (h : ∀ n < 128, isNameChar (Char.ofNat n) = true → P (Char.ofNat n)) {c : Char}
    (hc : isNameChar c = true) : P c :=
  of_toNat_lt (P := fun c => isNameChar c = true → P c) h (toNat_lt_of_isNameChar hc) hc

theorem inert_of_isNameChar {c : Char} (h : isNameChar c = true) : isInert c = true ∧ c ≠ '/' :=
  of_isNameChar (P := fun c => isInert c = true ∧ c ≠ '/') (by decide) h

theorem isInert_iff {c : Char} :
    isInert c = true ↔ Token.isPlain c = true ∧ isBlank c = false ∧ c ≠ ':' ∧ c ≠ '!' := by
  simp [isInert, and_assoc]

theorem isNameChar_of_isNamedValue {s : Text} (h : s.isNamedValue = true) {c : Char}
    (hc : c ∈ s) : isNameChar c = true := by
  unfold Text.isNamedValue at h
  split at h
  · cases h
  · simp only [Bool.and_eq_true, List.all_eq_true] at h
    rcases List.mem_cons.1 hc with rfl | hc
    · simp [isNameChar, isAlphanumericOr, h.1.1]
    · exact h.1.2 c hc

theorem isNameChar_of_isAlphanumericOr {signs : List Char}
    (hsigns : signs.all isNameChar = true) {c : Char} (h : isAlphanumericOr signs c = true) :
    isNameChar c = true := by
  rcases Bool.or_eq_true_iff.1 h with h | h
  · simp [isNameChar, isAlphanumericOr, h]
  · exact List.all_eq_true.1 hsigns c (List.contains_iff_mem.1 h)

/-! ## Marks -/

theorem takeMark_cases (s : Text) :
    (∃ rest, s = '!' :: rest ∧ takeMark s = (true, rest)) ∨
      s.head? ≠ some '!' ∧ takeMark s = (false, s) := by
  unfold takeMark
  split
  · next rest => exact .inl ⟨rest, rfl, rfl⟩
  · next h =>
    refine .inr ⟨fun hs => ?_, rfl⟩
    obtain ⟨rest, rfl⟩ := List.head?_eq_some_iff.1 hs
    exact h rest rfl

theorem takeFinalMark_cases (s : Text) :
    (∃ rest, s = rest ++ ['!'] ∧ takeFinalMark s = (true, rest)) ∨
      s.getLast? ≠ some '!' ∧ takeFinalMark s = (false, s) := by
  unfold takeFinalMark
  split
  · next h =>
    obtain ⟨rest, rfl⟩ := List.getLast?_eq_some_iff.1 h
    exact .inl ⟨rest, rfl, by rw [List.dropLast_concat]⟩
  · next h => exact .inr ⟨h, rfl⟩

theorem takeMark_cons (s : Text) : takeMark ('!' :: s) = (true, s) := rfl

theorem takeFinalMark_concat (s : Text) : takeFinalMark (s ++ ['!']) = (true, s) := by
  rw [takeFinalMark, if_pos List.getLast?_concat, List.dropLast_concat]

theorem takeMark_of_head?_ne {s : Text} (h : s.head? ≠ some '!') : takeMark s = (false, s) := by
  rcases takeMark_cases s with ⟨rest, rfl, _⟩ | ⟨_, hs⟩
  · exact absurd rfl h
  · exact hs

theorem takeFinalMark_of_getLast?_ne {s : Text} (h : s.getLast? ≠ some '!') :
    takeFinalMark s = (false, s) := by
  rcases takeFinalMark_cases s with ⟨rest, rfl, _⟩ | ⟨_, hs⟩
  · exact absurd List.getLast?_concat h
  · exact hs

/-- How a class is cut, and where its mark is taken off. At every other place there is none. -/
inductive Outline.Cut (o : Outline) : Option MarkPlace → Prop
  | unmarked : o.raw.head? ≠ some '!' → o.raw.segments ':' = o.segments ++ [o.base] →
      o.base.head? ≠ some '!' → o.base.getLast? ≠ some '!' → Cut o none
  | front {rest : Text} : o.raw = '!' :: rest → rest.segments ':' = o.segments ++ [o.base] →
      o.base.head? ≠ some '!' → o.base.getLast? ≠ some '!' → Cut o (some .front)
  | inside : o.raw.head? ≠ some '!' → o.raw.segments ':' = o.segments ++ ['!' :: o.base] →
      o.base.getLast? ≠ some '!' → Cut o (some .inside)
  | back : o.raw.head? ≠ some '!' → o.raw.segments ':' = o.segments ++ [o.base ++ ['!']] →
      o.base.head? ≠ some '!' → Cut o (some .back)

/-- The pieces of a class are what it is cut into. -/
theorem Outline.cut_of_ofText? {raw : Text} {o : Outline} (h : ofText? settings raw = some o) :
    raw.hasBlank = false ∧ raw.isBalanced settings.maxOpenGroups = true ∧ o.raw = raw ∧
      o.base ≠ [] ∧ ∃ place, o.Cut place ∧ o.important = place.isSome := by
  unfold ofText? at h
  obtain ⟨hraw, h⟩ := Option.ite_none_left_eq_some.1 h
  simp only [Bool.or_eq_true, Bool.not_eq_true', not_or, Bool.not_eq_true,
    Bool.not_eq_false] at hraw
  obtain ⟨parts, last, hparts⟩ := (takeMark raw).2.exists_segments_eq_concat ':'
  simp only [hparts, List.getLast?_concat, Option.getD_some, List.dropLast_concat] at h
  obtain ⟨hcount, h⟩ := Option.ite_none_left_eq_some.1 h
  cases h
  rw [Bool.or_eq_true, not_or, decide_eq_true_eq, List.isEmpty_iff] at hcount
  obtain ⟨hcount, hne⟩ := hcount
  refine ⟨hraw.1.2, hraw.2, rfl, hne, ?_⟩
  rcases takeMark_cases raw with ⟨rest, rfl, hfront⟩ | ⟨hhead, hfront⟩
  · -- A mark in front of the class: there is no other.
    rcases takeMark_cases last with ⟨base, rfl, _⟩ | ⟨hlast, hinside⟩
    · simp [hfront, takeMark_cons] at hcount
    · rcases takeFinalMark_cases last with ⟨base, rfl, hback⟩ | ⟨hbase, hback⟩
      · simp [hfront, hinside, hback] at hcount
      · rw [hfront] at hparts
        simp only [hfront, hinside, hback]
        exact ⟨_, .front rfl hparts hlast hbase, rfl⟩
  · rw [hfront] at hparts
    rcases takeMark_cases last with ⟨base, rfl, hinside⟩ | ⟨hlast, hinside⟩
    · -- A mark in front of the base: there is none at the end.
      rcases takeFinalMark_cases base with ⟨base, rfl, hback⟩ | ⟨hbase, hback⟩
      · simp [hfront, hinside, hback] at hcount
      · simp only [hfront, hinside, hback]
        exact ⟨_, .inside hhead hparts hbase, rfl⟩
    · rcases takeFinalMark_cases last with ⟨base, rfl, hback⟩ | ⟨hbase, hback⟩
      · simp only [hfront, hinside, hback] at hne ⊢
        refine ⟨_, .back hhead hparts fun hbase => hlast ?_, rfl⟩
        -- A mark in front of the base would be in front of what the base ends in, too.
        rw [List.head?_append, hbase, Option.some_or]
      · simp only [hfront, hinside, hback]
        exact ⟨_, .unmarked hhead hparts hlast hbase, rfl⟩

/-- A class without blanks that is balanced has the pieces that it is cut into. -/
theorem Outline.ofText?_of_cut {o : Outline} {place : Option MarkPlace}
    (hblank : o.raw.hasBlank = false) (hbalanced : o.raw.isBalanced settings.maxOpenGroups = true)
    (hne : o.base ≠ []) (hcut : o.Cut place) (himportant : o.important = place.isSome) :
    ofText? settings o.raw = some o := by
  obtain ⟨raw, segments, base, important⟩ := o
  dsimp only at hblank hbalanced hne himportant ⊢
  subst himportant
  have hraw : raw ≠ [] := by
    cases hcut with
    | unmarked _ hparts => exact Text.ne_nil_of_segments hparts hne
    | front hraw =>
      rintro rfl
      cases hraw
    | inside _ hparts => exact Text.ne_nil_of_segments hparts (List.cons_ne_nil _ _)
    | back _ hparts => exact Text.ne_nil_of_segments hparts (by simp)
  unfold ofText?
  rw [if_neg (by simp [hraw, hblank, hbalanced])]
  cases hcut with
  | unmarked hraw hparts hhead hlast =>
    simp [takeMark_of_head?_ne hraw, hparts, takeMark_of_head?_ne hhead,
      takeFinalMark_of_getLast?_ne hlast, hne]
  | front hraw hparts hhead hlast =>
    dsimp only at hraw
    subst hraw
    simp [takeMark_cons, hparts, takeMark_of_head?_ne hhead,
      takeFinalMark_of_getLast?_ne hlast, hne]
  | inside hraw hparts hlast =>
    simp [takeMark_of_head?_ne hraw, hparts, takeMark_cons,
      takeFinalMark_of_getLast?_ne hlast, hne]
  | back hraw hparts hhead =>
    have hhead' : (base ++ ['!']).head? ≠ some '!' := by
      rwa [List.head?_append, Option.or_of_isSome (by simpa using hne)]
    simp [takeMark_of_head?_ne hraw, hparts, takeMark_of_head?_ne hhead', takeFinalMark_concat,
      hne]

/-- A class has pieces exactly if it has no blanks and is balanced, and they are what it is cut
    into, with a base that is not empty. -/
theorem Outline.ofText?_eq_some {raw : Text} {o : Outline} :
    ofText? settings raw = some o ↔
      raw.hasBlank = false ∧ raw.isBalanced settings.maxOpenGroups = true ∧ o.raw = raw ∧
        o.base ≠ [] ∧ ∃ place, o.Cut place ∧ o.important = place.isSome := by
  refine ⟨cut_of_ofText?, ?_⟩
  rintro ⟨hblank, hbalanced, rfl, hne, place, hcut, himportant⟩
  exact ofText?_of_cut hblank hbalanced hne hcut himportant

/-! ## Data types -/

theorem DataType.colon_not_mem_of_ofName? {name : Text} (h : (ofName? name).isSome) :
    ':' ∉ name := by
  have hnamed : ∀ p ∈ named, ':' ∉ p.1 := by decide
  obtain ⟨p, hp, hname⟩ := List.lookup_isSome_iff.1 h
  rw [eq_of_beq hname]
  exact hnamed p hp

theorem splitTypeHint_append {name body : Text} (h : ':' ∉ name) :
    splitTypeHint (name ++ ':' :: body)
      = if (DataType.ofName? name).isSome && !body.isEmpty then (some name, body)
        else (none, name ++ ':' :: body) := by
  have hname : ∀ c ∈ name, decide (c ≠ ':') = true := fun c hc =>
    decide_eq_true (ne_of_mem_of_not_mem hc h)
  unfold splitTypeHint
  rw [List.takeWhile_append_of_pos hname, List.dropWhile_append_of_pos hname]
  simp

theorem splitTypeHint_of_hinted {s body : Text} {hint : Option Text} (h : Hinted s hint body) :
    splitTypeHint s = (hint, body) := by
  cases h with
  | @known name body hname hbody =>
    rw [splitTypeHint_append (DataType.colon_not_mem_of_ofName? hname)]
    simp [hname, hbody]
  | plain h =>
    by_cases hs : ':' ∈ s
    · obtain ⟨name, rest, rfl, hname⟩ := List.eq_append_cons_of_mem hs
      rw [splitTypeHint_append hname]
      by_cases hrest : rest = []
      · simp [hrest]
      · simp [h name rest rfl hrest]
    · -- Without a colon the name is the whole text, and nothing stops it.
      have hd : (s ++ []).dropWhile (fun c => decide (c ≠ ':')) = [] :=
        List.dropWhile_append_of_pos fun c hc => decide_eq_true (ne_of_mem_of_not_mem hc hs)
      rw [List.append_nil] at hd
      unfold splitTypeHint
      rw [hd]

/-- A data type is split off exactly where one stands in front. -/
theorem splitTypeHint_eq {s body : Text} {hint : Option Text} :
    splitTypeHint s = (hint, body) ↔ Hinted s hint body := by
  refine ⟨fun h => ?_, splitTypeHint_of_hinted⟩
  -- Every text is hinted in some way, and what is split off follows the hint.
  by_cases hk : ∃ name rest, s = name ++ ':' :: rest ∧ rest ≠ [] ∧ (DataType.ofName? name).isSome
  · obtain ⟨name, rest, rfl, hrest, hname⟩ := hk
    have hh : Hinted (name ++ ':' :: rest) (some name) rest := .known hname hrest
    rw [splitTypeHint_of_hinted hh] at h
    cases h
    exact hh
  · have hh : Hinted s none s := .plain fun name rest hs hrest => by
      rw [← Option.not_isSome_iff_eq_none]
      exact fun hname => hk ⟨name, rest, hs, hrest, hname⟩
    rw [splitTypeHint_of_hinted hh] at h
    cases h
    exact hh

/-! ## Values and modifiers -/

theorem isNamedValue_head {s : Text} (h : s.isNamedValue = true) :
    ∃ c rest, s = c :: rest ∧ isAlphanumeric c = true := by
  unfold Text.isNamedValue at h
  split at h
  · cases h
  · next c rest =>
    simp only [Bool.and_eq_true] at h
    exact ⟨c, rest, rfl, h.1.1⟩

theorem head?_ne_of_isNamedValue {s : Text} (h : s.isNamedValue = true) {c : Char}
    (hc : isAlphanumeric c = false) : s.head? ≠ some c := by
  obtain ⟨c', rest, rfl, hc'⟩ := isNamedValue_head h
  rintro heq
  cases heq
  rw [hc] at hc'
  cases hc'

namespace Value

theorem ofVariable?_eq_some {s : Text} {v : Value} :
    ofVariable? s = some v ↔ ∃ hint name, Hinted s hint name ∧ name.isCustomProperty = true ∧
      v = arbitrary (variableReference name) hint := by
  unfold ofVariable?
  constructor
  · intro h
    split at h
    next hint name hs =>
    split at h
    · next hn =>
      cases h
      exact ⟨hint, name, splitTypeHint_eq.1 hs, hn, rfl⟩
    · cases h
  · rintro ⟨hint, name, hh, hn, rfl⟩
    rw [splitTypeHint_eq.2 hh]
    exact if_pos hn

theorem ofText?_square (content : Text) :
    ofText? (Bracket.square.enclose content)
      = (decodeStripped? (splitTypeHint content).2).map
          (arbitrary · (splitTypeHint content).1) := by
  have ho : (Bracket.square.enclose content).head? = some '[' := rfl
  have hc : (Bracket.square.enclose content).endsWith "]" = true :=
    Bracket.endsWith_enclose .square content
  rw [ofText?, if_pos ho, if_pos hc, Bracket.inner_enclose]

theorem ofText?_round (content : Text) :
    ofText? (Bracket.round.enclose content) = ofVariable? content := by
  have hs : (Bracket.round.enclose content).head? ≠ some '[' := by simp [Bracket.opener]
  have ho : (Bracket.round.enclose content).head? = some '(' := rfl
  have hc : (Bracket.round.enclose content).endsWith ")" = true :=
    Bracket.endsWith_enclose .round content
  rw [ofText?, if_neg hs, if_pos ho, if_pos hc, Bracket.inner_enclose]

theorem ofText?_named {key : Text} (h : key.isNamedValue = true) :
    ofText? key = some (named key none) := by
  unfold ofText?
  rw [if_neg (head?_ne_of_isNamedValue h rfl), if_neg (head?_ne_of_isNamedValue h rfl), if_pos h]

/-- A text is read as the value that it spells without a modifier. -/
theorem ofText?_eq_some {s : Text} {v : Value} : ofText? s = some v ↔ ValueSpelling none v s := by
  constructor
  · intro h
    -- The first character decides between the forms, as a name begins with no bracket.
    by_cases ho : s.head? = some '['
    · by_cases hc : s.endsWith "]" = true
      · obtain ⟨content, rfl⟩ := Bracket.exists_eq_enclose (b := .square) ho hc
        rw [ofText?_square] at h
        obtain ⟨value, hv, rfl⟩ := Option.map_eq_some_iff.1 h
        exact .bracketed (splitTypeHint_eq.1 rfl) hv
      · rw [ofText?, if_pos ho, if_neg hc] at h
        cases h
    · by_cases ho' : s.head? = some '('
      · by_cases hc : s.endsWith ")" = true
        · obtain ⟨content, rfl⟩ := Bracket.exists_eq_enclose (b := .round) ho' hc
          rw [ofText?_round] at h
          obtain ⟨hint, name, hh, hn, rfl⟩ := ofVariable?_eq_some.1 h
          exact .custom hh hn
        · rw [ofText?, if_neg ho, if_pos ho', if_neg hc] at h
          cases h
      · rw [ofText?, if_neg ho, if_neg ho'] at h
        obtain ⟨hn, hv⟩ := Option.ite_none_right_eq_some.1 h
        cases hv
        exact .named hn
  · rintro (hn | ⟨hh, hv⟩ | ⟨hh, hn⟩)
    · exact ofText?_named hn
    · rw [ofText?_square, splitTypeHint_eq.2 hh, hv]
      rfl
    · rw [ofText?_round]
      exact ofVariable?_eq_some.2 ⟨_, _, hh, hn, rfl⟩

end Value

theorem Value.withFraction_named (key : Text) (modifier : Option Modifier) :
    (named key none).withFraction modifier = named key (fractionOf key modifier) := by
  rcases modifier with _ | m | m
  · rfl
  · simp only [withFraction, fractionOf]
    split <;> rfl
  · rfl

theorem ValueSpelling.withFraction {v : Value} {s : Text} (h : ValueSpelling none v s)
    (modifier : Option Modifier) : ValueSpelling modifier (v.withFraction modifier) s := by
  cases h with
  | named hn =>
    have hs : ValueSpelling modifier (.named s (fractionOf s modifier)) s := .named hn
    rwa [← Value.withFraction_named] at hs
  | bracketed hh hv => exact .bracketed hh hv
  | custom hh hn => exact .custom hh hn

namespace Modifier

theorem ofText?_square (content : Text) :
    ofText? (Bracket.square.enclose content) = (decodeStripped? content).map arbitrary := by
  have h : ((Bracket.square.enclose content).head? = some '[' &&
      (Bracket.square.enclose content).endsWith "]") = true := by
    rw [Bool.and_eq_true, decide_eq_true_eq]
    exact ⟨rfl, Bracket.endsWith_enclose .square content⟩
  rw [ofText?, if_pos h, Bracket.inner_enclose]

theorem ofText?_round (content : Text) :
    ofText? (Bracket.round.enclose content)
      = (Value.ofVariable? content).map fun value => arbitrary value.text := by
  have hs : ¬ ((Bracket.round.enclose content).head? = some '[' &&
      (Bracket.round.enclose content).endsWith "]") = true := by
    simp [Bracket.opener]
  have h : ((Bracket.round.enclose content).head? = some '(' &&
      (Bracket.round.enclose content).endsWith ")") = true := by
    rw [Bool.and_eq_true, decide_eq_true_eq]
    exact ⟨rfl, Bracket.endsWith_enclose .round content⟩
  rw [ofText?, if_neg hs, if_pos h, Bracket.inner_enclose]

theorem ofText?_named {key : Text} (h : key.isNamedValue = true) :
    ofText? key = some (named key) := by
  have hs : key.head? ≠ some '[' := head?_ne_of_isNamedValue h rfl
  have hr : key.head? ≠ some '(' := head?_ne_of_isNamedValue h rfl
  simp [ofText?, hs, hr, h]

/-- A text is read as the modifier that it spells. -/
theorem ofText?_eq_some {s : Text} {m : Modifier} : ofText? s = some m ↔ ModifierSpelling m s := by
  constructor
  · intro h
    unfold ofText? at h
    split at h
    · next hb =>
      simp only [Bool.and_eq_true, decide_eq_true_eq] at hb
      obtain ⟨content, rfl⟩ := Bracket.exists_eq_enclose (b := .square) hb.1 hb.2
      rw [Bracket.inner_enclose] at h
      obtain ⟨value, hv, rfl⟩ := Option.map_eq_some_iff.1 h
      exact .bracketed hv
    · split at h
      · next hb =>
        simp only [Bool.and_eq_true, decide_eq_true_eq] at hb
        obtain ⟨content, rfl⟩ := Bracket.exists_eq_enclose (b := .round) hb.1 hb.2
        rw [Bracket.inner_enclose] at h
        obtain ⟨value, hv, rfl⟩ := Option.map_eq_some_iff.1 h
        obtain ⟨hint, name, hh, hn, rfl⟩ := Value.ofVariable?_eq_some.1 hv
        exact .custom hh hn
      · obtain ⟨hn, hm⟩ := Option.ite_none_right_eq_some.1 h
        cases hm
        exact .named hn
  · rintro (hn | hv | ⟨hh, hn⟩)
    · exact ofText?_named hn
    · rw [ofText?_square, hv]
      rfl
    · rw [ofText?_round, Value.ofVariable?_eq_some.2 ⟨_, _, hh, hn, rfl⟩]
      rfl

end Modifier

/-! ## Bases -/

/-- A base is cut into its front and its modifier at the one slash outside every group. -/
theorem splitModifier?_eq_some {base front : Text} {modifier : Option Modifier} :
    splitModifier? base = some (front, modifier) ↔
      base.segments '/' = [front] ∧ modifier = none ∨
        ∃ text m, base.segments '/' = [front, text] ∧ front ≠ [] ∧ text ≠ [] ∧
          ModifierSpelling m text ∧ modifier = some m := by
  unfold splitModifier?
  split
  · next part h =>
    -- A single part is the base itself.
    have hb : part = base := by
      have := Text.join_segments base '/'
      rwa [h, Text.join_singleton] at this
    simp [h, hb, eq_comm]
  · next part text h =>
    rw [h]
    constructor
    · intro hs
      obtain ⟨hne, hs⟩ := Option.ite_none_left_eq_some.1 hs
      simp only [Bool.or_eq_true, List.isEmpty_iff, not_or] at hne
      obtain ⟨m, hm, hfront⟩ := Option.map_eq_some_iff.1 hs
      cases hfront
      exact .inr ⟨text, m, rfl, hne.1, hne.2, Modifier.ofText?_eq_some.1 hm, rfl⟩
    · rintro (⟨hparts, _⟩ | ⟨text', m, hparts, hf, ht, hm, rfl⟩)
      · cases hparts
      · cases hparts
        rw [Modifier.ofText?_eq_some.2 hm]
        simp [hf, ht]
  · next h1 h2 =>
    -- Neither one part nor two.
    constructor
    · intro h
      cases h
    · rintro (⟨h, _⟩ | ⟨text, m, h, _⟩)
      · exact absurd h (h1 front)
      · exact absurd h (h2 front text)

namespace Outline

/-- A front without its modifier is a name that stands bare, or else the longest name with the
    text of its value. -/
theorem utility?_eq_some {o : Outline} {table : UtilityTable} {variants : List Variant}
    {negative : Bool} {name : Text} {modifier : Option Modifier} {c : Candidate} :
    o.utility? table variants negative name modifier = some c ↔
      table.standsBare name = true ∧
          c = { raw := o.raw, kind := .static, root := name, value := none, modifier, variants,
                important := o.important, negative, property := none } ∨
        table.standsBare name = false ∧ ∃ root text value,
          Text.LongestRoot table.takesValue name root text ∧ ValueSpelling none value text ∧
          c = { raw := o.raw, kind := .functional, root,
                value := some (value.withFraction modifier), modifier, variants,
                important := o.important, negative, property := none } := by
  unfold utility?
  constructor
  · intro h
    split at h
    · next hb =>
      cases h
      exact .inl ⟨hb, rfl⟩
    · next hb =>
      split at h
      · cases h
      · next root text splits hr =>
        obtain ⟨value, hv, rfl⟩ := Option.map_eq_some_iff.1 h
        refine .inr ⟨eq_false_of_ne_true hb, root, text, value, ?_, Value.ofText?_eq_some.1 hv, rfl⟩
        exact Text.head?_rootSplits.1 (by rw [hr, List.head?_cons])
  · rintro (⟨hb, rfl⟩ | ⟨hb, root, text, value, hroot, hv, rfl⟩)
    · rw [if_pos hb]
    · obtain ⟨splits, hr⟩ := List.head?_eq_some_iff.1 (Text.head?_rootSplits.2 hroot)
      rw [if_neg (ne_true_of_eq_false hb), hr]
      dsimp only
      rw [Value.ofText?_eq_some.2 hv, Option.map_some]

end Outline

end UtilityCss
