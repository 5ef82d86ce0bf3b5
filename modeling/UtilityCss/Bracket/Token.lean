import UtilityCss.Bracket.Basic

/-!
# Tokens of bracketed values

The text between the brackets of an arbitrary value, such as
`calc(100%_-_2rem)`, falls into tokens: the six brackets, quoted parts, and
*runs*, which are as long as possible. In runs and quoted parts a backslash takes
the next character with it, but not a line break.

* `Token.tokenize`: the tokens of a text, and the rest where no token starts;
* `tokenize_append`: nothing is lost or made up on the way.
-/

namespace UtilityCss

/-- A token of a bracketed value. -/
inductive Token where
  | run (raw : Text)
  | quoted (raw : Text)
  | opener (bracket : Bracket)
  | closer (bracket : Bracket)
  deriving DecidableEq, Repr

namespace Token

/-- The text of a token. -/
def raw : Token → Text
  | run raw => raw
  | quoted raw => raw
  | opener b => [b.opener]
  | closer b => [b.closer]

/-- Whether a character may stand in a run without a backslash. -/
def isPlain (c : Char) : Bool :=
  (Bracket.ofOpener? c).isNone && (Bracket.ofCloser? c).isNone && !isQuote c && c ≠ '\\'

/-- The longest run at the start of a text, and the text after it. A backslash
    takes the next character with it, but not a line break. -/
def takeRun : Text → Text × Text
  | [] => ([], [])
  | '\\' :: c :: rest =>
    if c = '\n' then ([], '\\' :: c :: rest)
    else
      let (part, after) := takeRun rest
      ('\\' :: c :: part, after)
  | c :: rest =>
    if isPlain c then
      let (part, after) := takeRun rest
      (c :: part, after)
    else ([], c :: rest)

/-- The rest of a quoted part with its closing quote, and the text after it. -/
def takeQuoted (quote : Char) : Text → Option (Text × Text)
  | [] => none
  | '\\' :: c :: rest =>
    if c = '\n' then none
    else match takeQuoted quote rest with
      | none => none
      | some (part, after) => some ('\\' :: c :: part, after)
  | c :: rest =>
    if c = quote then some ([c], rest)
    else if c = '\\' then none
    else match takeQuoted quote rest with
      | none => none
      | some (part, after) => some (c :: part, after)

/-- The token at the start of a text, and the text after it. -/
def next? : Text → Option (Token × Text)
  | [] => none
  | c :: rest =>
    match Bracket.ofOpener? c, Bracket.ofCloser? c with
    | some b, _ => some (opener b, rest)
    | none, some b => some (closer b, rest)
    | none, none =>
      if isQuote c then match takeQuoted c rest with
        | none => none
        | some (part, after) => some (quoted (c :: part), after)
      else match takeRun (c :: rest) with
        | ([], _) => none
        | (part, after) => some (run part, after)

theorem takeRun_append (s : Text) : (takeRun s).1 ++ (takeRun s).2 = s := by
  fun_induction takeRun s with
  | case1 => rfl
  | case2 rest => rfl
  | case3 c rest _ part after htake ih =>
    rw [htake] at ih
    exact congrArg ('\\' :: c :: ·) ih
  | case4 c rest _ _ part after htake ih =>
    rw [htake] at ih
    exact congrArg (c :: ·) ih
  | case5 c rest _ _ => rfl

theorem takeQuoted_append {quote : Char} {s part after : Text}
    (h : takeQuoted quote s = some (part, after)) : part ++ after = s := by
  fun_induction takeQuoted quote s generalizing part after with
  | case4 c rest _ part after htake ih =>
    cases h
    exact congrArg ('\\' :: c :: ·) (ih htake)
  | case5 rest =>
    cases h
    rfl
  | case8 c rest _ _ _ part after htake ih =>
    cases h
    exact congrArg (c :: ·) (ih htake)
  -- The other cases give no part.
  | _ => cases h

theorem next?_append {s after : Text} {t : Token} (h : next? s = some (t, after)) :
    t.raw ++ after = s := by
  unfold next? at h
  split at h
  · cases h
  · next c rest =>
    split at h
    · next b hb =>
      cases h
      rw [Bracket.ofOpener?_eq_some.1 hb]
      rfl
    · next b _ hb =>
      cases h
      rw [Bracket.ofCloser?_eq_some.1 hb]
      rfl
    · split at h
      · split at h
        · cases h
        · next part _ htake =>
          cases h
          exact congrArg (c :: ·) (takeQuoted_append htake)
      · split at h
        · cases h
        · next part _ _ htake =>
          cases h
          have hrun := takeRun_append (c :: rest)
          rwa [htake] at hrun

theorem raw_ne_nil_of_next? {s after : Text} {t : Token} (h : next? s = some (t, after)) :
    t.raw ≠ [] := by
  unfold next? at h
  grind [raw]

/-- The tokens of a text up to the first place where no token starts, and the
    text from there on. -/
def tokenize (s : Text) : List Token × Text :=
  match h : next? s with
  | none => ([], s)
  | some (t, after) =>
    have : after.length < s.length := by
      have := next?_append h
      have := List.length_pos_iff.2 (raw_ne_nil_of_next? h)
      grind
    let (ts, rest) := tokenize after
    (t :: ts, rest)
termination_by s.length

theorem tokenize_append (s : Text) :
    (tokenize s).1.flatMap Token.raw ++ (tokenize s).2 = s := by
  fun_induction tokenize s with
  | case1 => simp
  | case2 s t after h _ ts rest he ih =>
    rw [he] at ih
    simp [ih, next?_append h]

end Token

end UtilityCss
