/-!
# Texts

A *text* is the list of its characters. Class names, theme values, selectors and
CSS are all texts; a string literal may stand wherever a text is expected.

* `Text.substitute`: replaces every occurrence of a character in one pass, so
  that what is put in is not searched again;
* `Text.dropFinalNewline`: many patterns overlook one line break at the end.
-/

namespace UtilityCss

/-- A text: its characters, from left to right. -/
abbrev Text := List Char

instance : Coe String Text := ⟨String.toList⟩

/-- What holds of the code points below a bound holds of the characters there. -/
theorem of_toNat_lt {P : Char → Prop} {bound : Nat} (h : ∀ n < bound, P (Char.ofNat n)) {c : Char}
    (hc : c.toNat < bound) : P c :=
  Char.ofNat_toNat c ▸ h c.toNat hc

theorem toNat_lt_of_isAlphanum {c : Char} (h : c.isAlphanum = true) : c.toNat < 0x80 := by
  rcases Bool.or_eq_true_iff.1 h with halpha | hdigit
  · rcases Bool.or_eq_true_iff.1 halpha with hupper | hlower
    · have hle : c.toNat ≤ 'Z'.toNat := (of_decide_eq_true hupper).2
      exact Nat.lt_of_le_of_lt hle (by decide)
    · have hle : c.toNat ≤ 'z'.toNat := of_decide_eq_true (Bool.and_eq_true_iff.1 hlower).2
      exact Nat.lt_of_le_of_lt hle (by decide)
  · have hle : c.toNat ≤ '9'.toNat := of_decide_eq_true (Bool.and_eq_true_iff.1 hdigit).2
    exact Nat.lt_of_le_of_lt hle (by decide)

theorem toNat_lt_of_isDigit {c : Char} (h : c.isDigit = true) : c.toNat < 0x80 :=
  toNat_lt_of_isAlphanum (Bool.or_eq_true_iff.2 (.inr h))

namespace Text

/-- Whether `s` begins with `start`. -/
def startsWith (s start : Text) : Bool :=
  start.isPrefixOf s

/-- Whether `s` ends with `last`. -/
def endsWith (s last : Text) : Bool :=
  last.isSuffixOf s

/-- Whether `part` occurs in `s` without a gap. -/
def hasInside (part : Text) : Text → Bool
  | [] => part.isEmpty
  | c :: rest => part.isPrefixOf (c :: rest) || hasInside part rest

/-- The parts of a list of texts, one after the other with `separator` between. -/
def join (separator : Text) (parts : List Text) : Text :=
  List.intercalate separator parts

@[simp] theorem join_nil (separator : Text) : join separator [] = [] := rfl

@[simp] theorem join_singleton (separator part : Text) : join separator [part] = part :=
  List.intercalate_singleton

theorem join_cons_cons (separator part part' : Text) (parts : List Text) :
    join separator (part :: part' :: parts)
      = part ++ separator ++ join separator (part' :: parts) :=
  List.intercalate_cons_cons

theorem join_cons_left (separator : Text) (c : Char) (part : Text) (parts : List Text) :
    join separator ((c :: part) :: parts) = c :: join separator (part :: parts) :=
  List.intercalate_cons_cons_left

theorem join_eq_flatten (parts : List Text) : join [] parts = parts.flatten := by
  induction parts with
  | nil => rfl
  | cons s parts ih =>
    cases parts with
    | nil => rw [join_singleton, List.flatten_singleton]
    | cons t parts =>
      rw [join_cons_cons, ih, List.append_nil]
      rfl

/-- The text with every character `c` replaced by `value`. What is put in is not
    searched for `c` again. -/
def substitute (s : Text) (c : Char) (value : Text) : Text :=
  s.flatMap fun x => if x = c then value else [x]

/-- The text without the one line break that it may end in. -/
def dropFinalNewline (s : Text) : Text :=
  if s.getLast? = some '\n' then s.dropLast else s

/-- The text without its first and its last character: what stands between the
    brackets of a bracketed text. -/
def inner (s : Text) : Text :=
  s.tail.dropLast

/-- The text without the characters of `p` at its end. -/
def dropEndWhile (p : Char → Bool) (s : Text) : Text :=
  (s.reverse.dropWhile p).reverse

/-- The decimal digits of a number. -/
def ofNat (n : Nat) : Text :=
  Nat.toDigits 10 n

theorem dropFinalNewline_eq_self {s : Text} (h : '\n' ∉ s) : s.dropFinalNewline = s :=
  if_neg fun hlast => h (List.mem_of_getLast? hlast)

@[simp] theorem substitute_nil (c : Char) (value : Text) : substitute [] c value = [] := rfl

theorem substitute_append (s t : Text) (c : Char) (value : Text) :
    substitute (s ++ t) c value = substitute s c value ++ substitute t c value := by
  simp [substitute]

end Text

end UtilityCss
