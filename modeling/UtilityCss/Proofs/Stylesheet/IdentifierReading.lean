import UtilityCss.Compilation.Basic
import UtilityCss.DataType
import UtilityCss.Stylesheet.Identifier

/-!
# Identifiers are read back

A stylesheet is read one character of an identifier at a time: a character that stands for itself,
or an escape. An escape is a backslash with up to six hexadecimal digits, behind which a blank is
skipped, or with any other character but a line break. An identifier ends at the first character
that can be neither, and not all of its characters may come first.

* `Text.readNameChar?`, `Text.readName`, `Text.readIdentifier?`: how CSS reads an identifier;
* `readNameChar?_escapeInside`, `readNameChar?_escapeStart`: each escaped character is read back,
  whatever is behind it;
* `Text.readName_flatMap`: so are all characters in a row;
* `Text.readIdentifier?_of_isProperty`: the name of a property is read as it stands;
* `Text.readIdentifier?_escapeIdentifier`: an escaped text is an identifier, and read back.
-/

namespace UtilityCss

/-! ## Reading -/

/-- Whether a character stands for itself in an identifier. -/
def isIdentifierChar (c : Char) : Bool :=
  0x80 ≤ c.toNat || c.isAlphanum || c = '-' || c = '_'

/-- Whether a character stands for itself at the start of an identifier. -/
def isIdentifierStart (c : Char) : Bool :=
  0x80 ≤ c.toNat || c.isAlpha || c = '_'

/-- The value of a hexadecimal digit. -/
def hexDigitValue (c : Char) : Nat :=
  if c.isDigit then c.toNat - '0'.toNat else c.toLower.toNat - 'a'.toNat + 10

/-- The character that is written by its code point. What is no character, or null, is U+FFFD. -/
def charOfHex (digits : Text) : Char :=
  let code := digits.foldl (fun n c => 16 * n + hexDigitValue c) 0
  if code = 0 ∨ ¬ code.isValidChar then '\ufffd' else Char.ofNat code

namespace Text

/-- The digits write a character by its code point. -/
def IsCodeOf (digits : Text) (c : Char) : Prop :=
  digits ≠ [] ∧ digits.length ≤ 6 ∧ (∀ d ∈ digits, isHexDigit d = true) ∧ charOfHex digits = c

instance (digits : Text) (c : Char) : Decidable (digits.IsCodeOf c) :=
  -- Only the given digits are to be searched.
  decidable_of_iff (digits ≠ [] ∧ digits.length ≤ 6 ∧ digits.all isHexDigit = true ∧
    charOfHex digits = c) (by rw [List.all_eq_true]; rfl)

/-- Skips one blank. -/
def skipBlank : Text → Text
  | c :: rest => if c = ' ' ∨ c = '\t' ∨ c = '\n' then rest else c :: rest
  | [] => []

/-- Reads what is behind a backslash. -/
def readEscape? : Text → Option (Char × Text)
  | [] => some ('\ufffd', [])
  | c :: rest =>
    if isHexDigit c then
      let digits := ((c :: rest).takeWhile isHexDigit).take 6
      some (charOfHex digits, skipBlank ((c :: rest).drop digits.length))
    else if c = '\n' then none
    else some (c, rest)

/-- Reads a character of an identifier. -/
def readNameChar? : Text → Option (Char × Text)
  | [] => none
  | c :: rest =>
    if c = '\\' then readEscape? rest
    else if isIdentifierChar c then some (c, rest)
    else none

theorem length_skipBlank_le (s : Text) : (skipBlank s).length ≤ s.length := by
  fun_cases skipBlank s <;> simp

theorem length_readEscape?_le {s rest : Text} {c : Char} (h : readEscape? s = some (c, rest)) :
    rest.length ≤ s.length := by
  rw [readEscape?.eq_def] at h
  split at h
  · cases h
    exact Nat.le_refl _
  · next d behind =>
    split at h
    · cases h
      refine Nat.le_trans (length_skipBlank_le _) ?_
      rw [List.length_drop]
      exact Nat.sub_le _ _
    · split at h
      · cases h
      · cases h
        exact Nat.le_succ _

theorem length_readNameChar?_lt {s rest : Text} {c : Char}
    (h : readNameChar? s = some (c, rest)) : rest.length < s.length := by
  rw [readNameChar?.eq_def] at h
  split at h
  · cases h
  · split at h
    · exact Nat.lt_succ_of_le (length_readEscape?_le h)
    · obtain ⟨_, h⟩ := Option.ite_none_right_eq_some.1 h
      cases h
      exact Nat.lt_succ_self _

/-- Reads the characters of an identifier up to the first that does not belong to it. -/
def readName (s : Text) : Text × Text :=
  match h : readNameChar? s with
  | none => ([], s)
  | some (c, rest) =>
    have := length_readNameChar?_lt h
    let (name, behind) := readName rest
    (c :: name, behind)
termination_by s.length

/-- Whether a text begins with a character that may be the first of a name, or with an escape. -/
def startsName : Text → Bool
  | [] => false
  | c :: rest => isIdentifierStart c || (c = '\\' && (readEscape? rest).isSome)

/-- Whether a text begins with an identifier, before which a hyphen may stand. -/
def startsIdentifier : Text → Bool
  | '-' :: rest => rest.head? = some '-' || startsName rest
  | s => startsName s

/-- Reads an identifier, which gives what it denotes and what is behind it. -/
def readIdentifier? (s : Text) : Option (Text × Text) :=
  if startsIdentifier s then some (readName s) else none

variable {s rest : Text} {c : Char}

theorem readName_of_some (h : readNameChar? s = some (c, rest)) :
    readName s = (c :: (readName rest).1, (readName rest).2) := by
  rw [readName]
  split
  · next hnone =>
    rw [h] at hnone
    cases hnone
  · next c' rest' hsome =>
    rw [h] at hsome
    cases hsome
    rfl

theorem readName_of_none (h : readNameChar? s = none) : readName s = ([], s) := by
  rw [readName]
  split
  · rfl
  · next hsome =>
    rw [h] at hsome
    cases hsome

end Text

/-! ## Reading what is escaped -/

namespace Text

variable {c : Char}

theorem readNameChar?_of_isIdentifierChar (h : isIdentifierChar c = true) (rest : Text) :
    readNameChar? (c :: rest) = some (c, rest) := by
  have hne : c ≠ '\\' := by
    rintro rfl
    exact absurd h (by decide)
  rw [readNameChar?, if_neg hne, if_pos h]

/-- A backslash before a character that is neither a digit nor a line break. -/
theorem readNameChar?_escaped (hdigit : isHexDigit c = false) (hc : c ≠ '\n') (rest : Text) :
    readNameChar? ('\\' :: c :: rest) = some (c, rest) := by
  rw [readNameChar?, if_pos rfl, readEscape?, if_neg (by simp [hdigit]), if_neg hc]

/-- A backslash before a code point, with a space behind. -/
theorem readNameChar?_code {digits : Text} (h : digits.IsCodeOf c) (rest : Text) :
    readNameChar? ('\\' :: digits ++ ' ' :: rest) = some (c, rest) := by
  obtain ⟨hne, hlength, hdigits, hvalue⟩ := h
  have hspace : isHexDigit ' ' = false := by decide
  have htake : (digits ++ ' ' :: rest).takeWhile isHexDigit = digits := by
    rw [List.takeWhile_append_of_pos hdigits, List.takeWhile_cons_of_neg (by simp [hspace]),
      List.append_nil]
  obtain ⟨d, digits', rfl⟩ := List.exists_cons_of_ne_nil hne
  -- The first digit shows that it is a code point, and is then read with the others.
  rw [List.cons_append, readNameChar?, if_pos rfl, List.cons_append, readEscape?,
    if_pos (hdigits d (.head _)), ← List.cons_append, htake]
  dsimp only
  rw [List.take_of_length_le hlength, List.drop_left, skipBlank, if_pos (.inl rfl), hvalue]

end Text

theorem readNameChar?_codeEscape {c : Char} (hnull : c ≠ '\x00') (h : c.toNat < 0x80)
    (rest : Text) : Text.readNameChar? (codeEscape c ++ rest) = some (c, rest) := by
  have hcode := of_toNat_lt (P := fun c => c ≠ '\x00' → Text.IsCodeOf (hexadecimal 1 c.toNat) c)
    (by decide +kernel) h hnull
  rw [codeEscape, List.append_assoc, List.singleton_append, Text.readNameChar?_code hcode rest]

theorem toNat_ne_zero {c : Char} (h : c ≠ '\x00') : c.toNat ≠ 0 := fun hzero =>
  h (by rw [← Char.ofNat_toNat c, hzero])

/-- The characters that are escaped by a backslash alone would not be read as digits. -/
theorem not_isHexDigit_of_not_isAlphanum {c : Char} (h : c.toNat < 0x80)
    (hc : c.isAlphanum = false) : Text.isHexDigit c = false :=
  of_toNat_lt (P := fun c => c.isAlphanum = false → Text.isHexDigit c = false) (by decide +kernel)
    h hc

theorem readNameChar?_escapeInside {c : Char} (hnull : c ≠ '\x00') (rest : Text) :
    Text.readNameChar? (escapeInside c ++ rest) = some (c, rest) := by
  rw [escapeInside, if_neg (toNat_ne_zero hnull)]
  split
  · exact readNameChar?_codeEscape hnull (by omega) rest
  · next hcontrol =>
    split
    · next hkept =>
      exact Text.readNameChar?_of_isIdentifierChar (by simpa [isIdentifierChar, or_assoc]) rest
    · next hkept =>
      rw [not_or, not_or, Nat.not_le] at hkept
      refine Text.readNameChar?_escaped ?_ ?_ rest
      · exact not_isHexDigit_of_not_isAlphanum hkept.1 (eq_false_of_ne_true hkept.2.1)
      · rintro rfl
        exact hcontrol (.inl (by decide))

theorem readNameChar?_escapeStart {c : Char} (hnull : c ≠ '\x00') (rest : Text) :
    Text.readNameChar? (escapeStart c ++ rest) = some (c, rest) := by
  rw [escapeStart]
  split
  · next hdigit =>
    have hlt := toNat_lt_of_isDigit hdigit
    exact readNameChar?_codeEscape hnull hlt rest
  · exact readNameChar?_escapeInside hnull rest

/-- But for a hyphen, a character is escaped at the start if it must not be the first. -/
theorem exists_escapeStart {c : Char} (hnull : c ≠ '\x00') (hhyphen : c ≠ '-') :
    ∃ d front, escapeStart c = d :: front ∧ (d = '\\' ∨ isIdentifierStart d = true) := by
  rw [escapeStart]
  split
  · exact ⟨_, _, rfl, .inl rfl⟩
  · next hdigit =>
    rw [escapeInside, if_neg (toNat_ne_zero hnull)]
    split
    · exact ⟨_, _, rfl, .inl rfl⟩
    · split
      · next hkept =>
        -- A digit and a hyphen are all that stands for itself, but not at the start.
        refine ⟨_, _, rfl, .inr ?_⟩
        rcases hkept with hwide | halphanum | rfl | rfl
        · simp [isIdentifierStart, hwide]
        · have halpha : c.isAlpha = true := (Bool.or_eq_true_iff.1 halphanum).resolve_right hdigit
          simp [isIdentifierStart, halpha]
        · exact absurd rfl hhyphen
        · rfl
      · exact ⟨_, _, rfl, .inl rfl⟩

namespace Text

variable {s rest : Text} {c : Char}

theorem startsName_of_readNameChar? (hc : c = '\\' ∨ isIdentifierStart c = true)
    (h : (readNameChar? (c :: rest)).isSome = true) : startsName (c :: rest) = true := by
  rw [startsName]
  rcases hc with rfl | hc
  · rw [readNameChar?, if_pos rfl] at h
    simp [h]
  · simp [hc]

theorem startsIdentifier_of_startsName (h : startsName s = true) : startsIdentifier s = true := by
  have hhyphen : isIdentifierStart '-' = false := by decide
  fun_cases startsIdentifier s with
  | case1 rest => simp [startsName, hhyphen] at h
  | case2 => exact h

theorem startsName_escapeStart (hnull : c ≠ '\x00') (hhyphen : c ≠ '-') (rest : Text) :
    startsName (escapeStart c ++ rest) = true := by
  have hread := readNameChar?_escapeStart hnull rest
  obtain ⟨d, front, heq, hd⟩ := exists_escapeStart hnull hhyphen
  rw [heq, List.cons_append] at hread ⊢
  exact startsName_of_readNameChar? hd (Option.isSome_of_eq_some hread)

/-- Behind a hyphen, another one need not be escaped. -/
theorem startsIdentifier_hyphen (hnull : c ≠ '\x00') (rest : Text) :
    startsIdentifier ('-' :: (escapeStart c ++ rest)) = true := by
  rw [startsIdentifier]
  by_cases hhyphen : c = '-'
  · subst hhyphen
    rfl
  · rw [startsName_escapeStart hnull hhyphen, Bool.or_true]

/-- The characters of a name are read up to what cannot continue it. -/
theorem readName_flatMap (hs : '\x00' ∉ s) (hrest : readNameChar? rest = none) :
    readName (s.flatMap escapeInside ++ rest) = (s, rest) := by
  induction s with
  | nil => exact readName_of_none hrest
  | cons c s ih =>
    obtain ⟨hc, hs⟩ := List.ne_and_not_mem_of_not_mem_cons hs
    rw [List.flatMap_cons, List.append_assoc,
      readName_of_some (readNameChar?_escapeInside hc.symm _), ih hs]

theorem readName_escapeStart (hs : '\x00' ∉ c :: s) (hrest : readNameChar? rest = none) :
    readName (escapeStart c ++ (s.flatMap escapeInside ++ rest)) = (c :: s, rest) := by
  obtain ⟨hc, hs⟩ := List.ne_and_not_mem_of_not_mem_cons hs
  rw [readName_of_some (readNameChar?_escapeStart hc.symm _), readName_flatMap hs hrest]

/-- An escaped text is read back. -/
theorem readIdentifier?_escape (hs : s ≠ []) (hnull : '\x00' ∉ s)
    (hrest : readNameChar? rest = none) :
    readIdentifier? (s.escapeIdentifier ++ rest) = some (s, rest) := by
  have hhyphen : isHexDigit '-' = false := by decide
  fun_cases escapeIdentifier s with
  | case1 => exact absurd rfl hs
  | case2 =>
    have hread := readNameChar?_escaped hhyphen (by decide) rest
    have hstart : startsIdentifier ('\\' :: '-' :: rest) = true :=
      startsIdentifier_of_startsName
        (startsName_of_readNameChar? (.inl rfl) (Option.isSome_of_eq_some hread))
    rw [List.cons_append, List.cons_append, List.nil_append, readIdentifier?, if_pos hstart,
      readName_of_some hread, readName_of_none hrest]
  | case3 c behind =>
    obtain ⟨-, hnull⟩ := List.ne_and_not_mem_of_not_mem_cons hnull
    have hread := readNameChar?_of_isIdentifierChar (c := '-') (by decide)
    rw [List.cons_append, List.cons_append, List.append_assoc, readIdentifier?,
      if_pos (startsIdentifier_hyphen (ne_of_mem_of_not_mem List.mem_cons_self hnull) _),
      readName_of_some (hread _), readName_escapeStart hnull hrest]
  | case4 c behind hlone hbehind =>
    -- A hyphen is in the cases before, with and without something behind it.
    have hne : c ≠ '-' := by
      rintro rfl
      cases behind with
      | nil => exact hlone rfl rfl
      | cons c behind => exact hbehind c behind rfl rfl
    have hstart := startsIdentifier_of_startsName
      (startsName_escapeStart (ne_of_mem_of_not_mem List.mem_cons_self hnull) hne
        (behind.flatMap escapeInside ++ rest))
    rw [List.append_assoc, readIdentifier?, if_pos hstart, readName_escapeStart hnull hrest]

/-- Characters that stand for themselves are read as they stand. -/
theorem readName_of_isIdentifierChar (h : ∀ c ∈ s, isIdentifierChar c = true) :
    readName s = (s, []) := by
  induction s with
  | nil => exact readName_of_none rfl
  | cons c s ih =>
    obtain ⟨hc, hs⟩ := List.forall_mem_cons.1 h
    rw [readName_of_some (readNameChar?_of_isIdentifierChar hc s), ih hs]

theorem isIdentifierChar_of_isAlphanumericOr {signs : List Char}
    (hsigns : signs.all isIdentifierChar = true) (h : isAlphanumericOr signs c = true) :
    isIdentifierChar c = true := by
  rcases Bool.or_eq_true_iff.1 h with h | h
  · have halphanum : c.isAlphanum = true := h
    simp [isIdentifierChar, halphanum]
  · exact List.all_eq_true.1 hsigns c (List.contains_iff_mem.1 h)

/-- The name of a custom property is an identifier that begins with two hyphens. -/
theorem readIdentifier?_of_isCustomProperty (h : s.isCustomProperty = true) :
    readIdentifier? s = some (s, []) := by
  unfold isCustomProperty at h
  split at h
  · next name =>
    obtain ⟨_, hname⟩ := Bool.and_eq_true_iff.1 h
    have hall : ∀ c ∈ '-' :: '-' :: name, isIdentifierChar c = true :=
      List.forall_mem_cons.2 ⟨rfl, List.forall_mem_cons.2 ⟨rfl, fun c hc =>
        isIdentifierChar_of_isAlphanumericOr (by decide) (List.all_eq_true.1 hname c hc)⟩⟩
    rw [readIdentifier?, readName_of_isIdentifierChar hall]
    rfl
  · cases h

/-- Any other name of a property is an identifier that begins with a letter, or a hyphen and a
    letter. -/
theorem readIdentifier?_of_isPlainProperty (h : s.isPlainProperty = true) :
    readIdentifier? s = some (s, []) := by
  have hletters {c : Char} {rest : Text}
      (h : (c.isAlpha && rest.all (isAlphanumericOr ['-'])) = true) :
      startsName (c :: rest) = true ∧ ∀ d ∈ c :: rest, isIdentifierChar d = true := by
    obtain ⟨halpha, hrest⟩ := Bool.and_eq_true_iff.1 h
    refine ⟨by simp [startsName, isIdentifierStart, halpha], List.forall_mem_cons.2 ⟨?_, ?_⟩⟩
    · simp [isIdentifierChar, Char.isAlphanum, halpha]
    · exact fun d hd =>
        isIdentifierChar_of_isAlphanumericOr (by decide) (List.all_eq_true.1 hrest d hd)
  rw [isPlainProperty] at h
  split at h
  · cases h
  · next c rest hs =>
    obtain ⟨hstart, hall⟩ := hletters h
    by_cases hhyphen : s.head? = some '-'
    · obtain ⟨tail, rfl⟩ := List.head?_eq_some_iff.1 hhyphen
      obtain rfl : tail = c :: rest := by simpa using hs
      have hall : ∀ d ∈ '-' :: c :: rest, isIdentifierChar d = true :=
        List.forall_mem_cons.2 ⟨rfl, hall⟩
      rw [readIdentifier?, readName_of_isIdentifierChar hall, startsIdentifier, hstart,
        Bool.or_true, if_pos rfl]
    · rw [if_neg hhyphen] at hs
      subst hs
      rw [readIdentifier?, readName_of_isIdentifierChar hall,
        if_pos (startsIdentifier_of_startsName hstart)]

theorem readIdentifier?_of_isProperty (h : s.isProperty = true) :
    readIdentifier? s = some (s, []) := by
  rcases Bool.or_eq_true_iff.1 h with hcustom | hplain
  · exact readIdentifier?_of_isCustomProperty hcustom
  · exact readIdentifier?_of_isPlainProperty hplain

/-- What begins with a digit, even behind a hyphen, is no identifier. -/
theorem readIdentifier?_of_isDigit (h : c.isDigit = true) (rest : Text) :
    readIdentifier? (c :: rest) = none ∧ readIdentifier? ('-' :: c :: rest) = none := by
  have hall : ∀ n < 0x80, (Char.ofNat n).isDigit = true →
      isIdentifierStart (Char.ofNat n) = false ∧ Char.ofNat n ≠ '-' ∧ Char.ofNat n ≠ '\\' := by
    decide +kernel
  have hstart := of_toNat_lt (P := fun c => c.isDigit = true →
    isIdentifierStart c = false ∧ c ≠ '-' ∧ c ≠ '\\') hall
    (toNat_lt_of_isDigit h) h
  have hname : startsName (c :: rest) = false := by simp [startsName, hstart]
  constructor
  · simp [readIdentifier?, startsIdentifier, hstart, hname]
  · simp [readIdentifier?, startsIdentifier, hstart, hname]

theorem readIdentifier?_hyphen : readIdentifier? ['-'] = none := by
  decide

theorem escapeIdentifier_injective {t : Text} (hs : '\x00' ∉ s) (ht : '\x00' ∉ t)
    (h : s.escapeIdentifier = t.escapeIdentifier) : s = t := by
  have hread {s : Text} (hs : '\x00' ∉ s) :
      ((readIdentifier? s.escapeIdentifier).map (·.1)).getD [] = s := by
    by_cases hne : s = []
    · rw [hne]
      rfl
    · rw [← List.append_nil s.escapeIdentifier, readIdentifier?_escape hne hs rfl]
      rfl
  rw [← hread hs, h, hread ht]

/-- An escaped text is an identifier that denotes the text, in front of everything that does not
    continue it. So the rules of two classes have different selectors. -/
theorem readIdentifier?_escapeIdentifier :
    (∀ s : Text, s ≠ [] → '\x00' ∉ s →
      (∀ c rest, c.isDigit = true →
        s.escapeIdentifier ≠ c :: rest ∧ s.escapeIdentifier ≠ '-' :: c :: rest) ∧
      s.escapeIdentifier ≠ ['-'] ∧
      ∀ rest, readNameChar? rest = none →
        readIdentifier? (s.escapeIdentifier ++ rest) = some (s, rest)) ∧
    ∀ (c d : Candidate) (assignments assignments' : List Assignment) (nodes nodes' : List Node)
      (selector selector' : Text), '\x00' ∉ c.raw → '\x00' ∉ d.raw → c.raw ≠ d.raw →
        ruleOf c assignments = .rule selector nodes →
        ruleOf d assignments' = .rule selector' nodes' → selector ≠ selector' := by
  refine ⟨fun s hs hnull => ?_, fun c d as bs nodes nodes' selector selector' hc hd hne h h' => ?_⟩
  · have hread : readIdentifier? s.escapeIdentifier = some (s, []) := by
      rw [← List.append_nil s.escapeIdentifier]
      exact readIdentifier?_escape hs hnull rfl
    refine ⟨fun c rest hdigit => ⟨fun h => ?_, fun h => ?_⟩, fun h => ?_,
      fun rest hrest => readIdentifier?_escape hs hnull hrest⟩
    · rw [h, (readIdentifier?_of_isDigit hdigit rest).1] at hread
      cases hread
    · rw [h, (readIdentifier?_of_isDigit hdigit rest).2] at hread
      cases hread
    · rw [h, readIdentifier?_hyphen] at hread
      cases hread
  · obtain ⟨rfl, -⟩ := Node.rule.inj h
    obtain ⟨rfl, -⟩ := Node.rule.inj h'
    exact fun heq => hne (escapeIdentifier_injective hc hd (List.cons.inj heq).2)

/-- A class that begins with a hyphen and a digit, and two that differ in a space. -/
theorem readIdentifier?_escapeIdentifier_of_digit :
    let plain (raw : Text) : Candidate :=
      ⟨raw, .static, raw, none, none, [], false, false, none⟩
    '\x00' ∉ ("-1/2" : Text) ∧ readNameChar? ":hover" = none ∧
      escapeIdentifier "-1/2" = "-\\31 \\/2" ∧
      readIdentifier? (escapeIdentifier "-1/2" ++ (":hover" : Text)) =
        some (("-1/2" : Text), (":hover" : Text)) ∧
      ruleOf (plain "a b") [] = .rule ".a\\ b" [] ∧
      ruleOf (plain "a  b") [] = .rule ".a\\ \\ b" [] ∧
      (".a\\ b" : Text) ≠ ".a\\ \\ b" := by
  intro plain
  have hnull : '\x00' ∉ ("-1/2" : Text) := by decide
  have hrest : readNameChar? ":hover" = none := by decide
  have hrule : ruleOf (plain "a b") [] = .rule ".a\\ b" [] := rfl
  have hrule' : ruleOf (plain "a  b") [] = .rule ".a\\ \\ b" [] := rfl
  refine ⟨hnull, hrest, by decide, ?_, hrule, hrule', ?_⟩
  · exact (readIdentifier?_escapeIdentifier.1 "-1/2" (by decide) hnull).2.2 ":hover" hrest
  · exact readIdentifier?_escapeIdentifier.2 (plain "a b") (plain "a  b") [] [] [] [] _ _
      (by decide) (by decide) (by decide) hrule hrule'

end Text

end UtilityCss
