import UtilityCss.Proofs.Bracket.Row
import UtilityCss.Proofs.Bracket.Underscored

/-!
# Decoding, one token after the other

Decoding goes along the tokens of a value and adds the decoded form of each. The decoded form of a
run depends on where it stands: a group in round brackets behind a run that ends in `url` is kept
as it is, with the groups in it. The marks of the tokens say which of them are kept
(`Token.marked`), and these marks do not change when the value is decoded.

* `Text.decode_eq_ok_iff`: what a text is decoded to, one token after the other;
* `Text.tokenize_of_decode`: the tokens of a decoded value are the decoded tokens.
-/

namespace UtilityCss

/-! ## Groups that are kept -/

/-- What decides whether the next token is kept as it is. -/
structure Surroundings where
  /-- Of every open group, the innermost first: whether it is in round brackets behind `url`. -/
  groups : List Bool
  /-- Whether the token before is a run that ends in `url`. -/
  endsInUrl : Bool

namespace Surroundings

/-- The surroundings of the first token. -/
def outside : Surroundings := ⟨[], false⟩

/-- Whether the next token stands in a group that is kept as it is. -/
def isKept (around : Surroundings) : Bool :=
  around.groups.any id

/-- The surroundings one token later. -/
def next (around : Surroundings) : Token → Surroundings
  | .run raw => ⟨around.groups, (Text.lower raw).endsWith "url"⟩
  | .quoted _ => ⟨around.groups, false⟩
  | .opener b => ⟨(b = .round && around.endsInUrl) :: around.groups, false⟩
  | .closer _ => ⟨around.groups.tail, false⟩

end Surroundings

namespace Token

/-- Tokens in their surroundings, each with whether it is kept as it is. -/
def marked (around : Surroundings) : List Token → List (Bool × Token)
  | [] => []
  | t :: ts => (around.isKept, t) :: marked (around.next t) ts

/-- A token after decoding. -/
def decoded (kept : Bool) : Token → Token
  | run raw => run (if kept then raw else decodeRun raw)
  | t => t

end Token

namespace GroupContent

/-- What a content adds to the decoded form of a value; `kept` says whether it is kept as it is. -/
def text (kept : Bool) (c : GroupContent) : Text :=
  if kept then c.raw else c.decoded

theorem text_empty (kept : Bool) : empty.text kept = [] :=
  ite_self _

variable {kept : Bool} {c : GroupContent}

theorem text_addRun (raw : Text) :
    (c.addRun raw).text kept = c.text kept ++ ((Token.run raw).decoded kept).raw := by
  cases kept <;> rfl

theorem text_addQuoted (raw : Text) : (c.addQuoted raw).text kept = c.text kept ++ raw := by
  cases kept <;> rfl

theorem text_addGroup (b : Bracket) (group : GroupContent) : (c.addGroup b group).text kept
    = c.text kept ++ b.enclose (group.text ((b = .round && c.endsInUrl) || kept)) := by
  cases kept with
  | true => simp [text, addGroup]
  | false =>
    cases h : decide (b = .round) && c.endsInUrl <;> simp [text, addGroup, h]

end GroupContent

namespace Decoding

/-- Whether one of some groups is in round brackets behind `url`. -/
def isKept (outer : List (Bracket × GroupContent)) : Bool :=
  outer.any fun p => p.1 = .round && p.2.endsInUrl

/-- The decoded form of what was read before the innermost of some groups. -/
def front : List (Bracket × GroupContent) → Text
  | [] => []
  | (b, around) :: outer => front outer ++ around.text (isKept outer) ++ [b.opener]

/-- The decoded form of all that was read before a point. -/
def decoded (r : Decoding) : Text :=
  front r.outer ++ r.content.text (isKept r.outer)

/-- The surroundings of the token after a point. -/
def surroundings (r : Decoding) : Surroundings :=
  ⟨r.outer.map fun p => p.1 = .round && p.2.endsInUrl, r.content.endsInUrl⟩

variable {r r' : Decoding} {t : Token}

theorem isKept_surroundings (r : Decoding) : r.surroundings.isKept = isKept r.outer :=
  List.any_map ..

theorem surroundings_step? (h : r.step? t = some r') :
    r'.surroundings = r.surroundings.next t := by
  cases t with
  | run | quoted | opener =>
    cases h
    rfl
  | closer b =>
    obtain ⟨outer, content⟩ := r
    cases outer with
    | nil => cases h
    | cons p outer =>
      obtain ⟨_, h⟩ := Option.ite_none_right_eq_some.1 h
      cases h
      rfl

/-- A token adds its decoded form at the end. -/
theorem decoded_step? (h : r.step? t = some r') :
    r'.decoded = r.decoded ++ (t.decoded r.surroundings.isKept).raw := by
  rw [isKept_surroundings, decoded, decoded]
  cases t with
  | run raw =>
    cases h
    dsimp only
    rw [GroupContent.text_addRun, List.append_assoc]
  | quoted raw =>
    cases h
    dsimp only
    rw [GroupContent.text_addQuoted, List.append_assoc]
    rfl
  | opener b =>
    cases h
    dsimp only
    rw [GroupContent.text_empty, front, List.append_nil]
    rfl
  | closer b =>
    obtain ⟨outer, content⟩ := r
    cases outer with
    | nil => cases h
    | cons p outer =>
      obtain ⟨rfl, h⟩ := Option.ite_none_right_eq_some.1 h
      cases h
      dsimp only
      rw [GroupContent.text_addGroup, front, Bracket.enclose]
      simp only [List.append_assoc]
      rfl

theorem decoded_foldlM {ts : List Token} (h : ts.foldlM step? r = some r') : r'.decoded
    = r.decoded ++ (Token.marked r.surroundings ts).flatMap fun p => (p.2.decoded p.1).raw := by
  induction ts generalizing r with
  | nil =>
    cases h
    rw [Token.marked, List.flatMap_nil, List.append_nil]
  | cons t ts ih =>
    rw [List.foldlM_cons] at h
    obtain ⟨r₁, hr₁, h⟩ := Option.bind_eq_some_iff.1 h
    rw [ih h, decoded_step? hr₁, surroundings_step? hr₁, Token.marked, List.flatMap_cons,
      List.append_assoc]

end Decoding

/-! ## Runs that end in `url` -/

theorem decodeRun_cons_of_ne {c : Char} (hc : c ≠ '\\') (s : Text) :
    decodeRun (c :: s) = (if c = '_' then ' ' else c) :: decodeRun s := by
  rw [decodeRun]
  rintro c' rest rfl
  exact absurd rfl hc

/-- Texts without underscores are decoded to themselves. -/
theorem decodeRun_of_not_mem {s : Text} (h : '_' ∉ s) : decodeRun s = s := by
  fun_induction decodeRun s with
  | case1 => rfl
  | case2 => simp at h
  | case3 c rest hc ih => rw [ih fun hm => h (.tail _ (.tail _ hm))]
  | case4 c rest _ ih =>
    have hc : c ≠ '_' := by
      rintro rfl
      exact h (.head _)
    rw [ih fun hm => h (.tail _ hm), if_neg hc]

/-- An underscore leaves a trace in the decoded form. -/
theorem decodeRun_eq_self {s : Text} (h : '_' ∉ decodeRun s) (hs : ' ' ∉ decodeRun s) :
    decodeRun s = s := by
  fun_induction decodeRun s with
  | case1 => rfl
  | case2 => simp at h
  | case3 c rest hc ih =>
    rw [ih (fun hm => h (.tail _ (.tail _ hm))) fun hm => hs (.tail _ (.tail _ hm))]
  | case4 c rest _ ih =>
    have hc : c ≠ '_' := by
      rintro rfl
      simp at hs
    rw [ih (fun hm => h (.tail _ hm)) fun hm => hs (.tail _ hm), if_neg hc]

/-- Decoding leaves the end of a run as it is, if it is free of what decoding changes and makes. -/
theorem suffix_decodeRun {s t : Text} (hunderscore : '_' ∉ t) (hspace : ' ' ∉ t)
    (hbackslash : '\\' ∉ t) : t <:+ decodeRun s ↔ t <:+ s := by
  have hcons {c : Char} {rest : Text} (ih : t <:+ decodeRun rest ↔ t <:+ rest) :
      t <:+ c :: decodeRun rest ↔ t <:+ c :: rest := by
    rw [List.suffix_cons_iff, List.suffix_cons_iff, ih]
    -- If the end is all of the text, then no sign of it was changed by decoding, or is.
    refine or_congr_left ⟨?_, ?_⟩
    · rintro rfl
      rw [decodeRun_eq_self (fun hm => hunderscore (.tail _ hm)) fun hm => hspace (.tail _ hm)]
    · rintro rfl
      rw [decodeRun_of_not_mem fun hm => hunderscore (.tail _ hm)]
  fun_induction decodeRun s with
  | case1 => rfl
  | case2 rest ih =>
    rw [suffix_cons_of_not_mem hunderscore, suffix_cons_of_not_mem hbackslash,
      suffix_cons_of_not_mem hunderscore]
    exact ih
  | case3 c rest _ ih =>
    rw [suffix_cons_of_not_mem hbackslash, suffix_cons_of_not_mem hbackslash]
    exact hcons ih
  | case4 c rest _ ih =>
    by_cases hc : c = '_'
    · rw [if_pos hc, suffix_cons_of_not_mem hspace, hc, suffix_cons_of_not_mem hunderscore]
      exact ih
    · rw [if_neg hc]
      exact hcons ih

theorem lower_decodeRun (s : Text) : Text.lower (decodeRun s) = decodeRun (Text.lower s) := by
  have hbackslash {c : Char} : lowered c = '\\' ↔ c = '\\' := lowered_eq_iff (by decide)
  have hunderscore {c : Char} : lowered c = '_' ↔ c = '_' := lowered_eq_iff (by decide)
  fun_induction decodeRun s with
  | case1 => rfl
  | case2 rest ih =>
    simp only [Text.lower_cons, hbackslash.2, hunderscore.2, ih]
    rfl
  | case3 c rest hc ih =>
    rw [Text.lower_cons, Text.lower_cons, Text.lower_cons, Text.lower_cons, hbackslash.2 rfl,
      decodeRun, if_neg (mt hunderscore.1 hc), ih]
  | case4 c rest hne ih =>
    rw [Text.lower_cons, Text.lower_cons, decodeRun, ih]
    · by_cases hc : c = '_'
      · rw [if_pos hc, if_pos (hunderscore.2 hc)]
        rfl
      · rw [if_neg hc, if_neg (mt hunderscore.1 hc)]
    · intro c' rest' hc hrest
      cases rest with
      | nil => cases hrest
      | cons c'' rest'' => exact hne c'' rest'' (hbackslash.1 hc) rfl

/-- Decoding does not change whether a run ends in `url`. -/
theorem endsInUrl_decodeRun (s : Text) :
    (Text.lower (decodeRun s)).endsWith "url" = (Text.lower s).endsWith "url" := by
  rw [Bool.eq_iff_iff, Text.endsWith, Text.endsWith, List.isSuffixOf_iff_suffix,
    List.isSuffixOf_iff_suffix, lower_decodeRun]
  exact suffix_decodeRun (by decide) (by decide) (by decide)

/-! ## The decoded form -/

/-- The tokens of the decoded form. -/
def Token.decodedRow (ts : List Token) : List Token :=
  (marked .outside ts).map fun p => p.2.decoded p.1

namespace Text

theorem decode_eq_ok_iff {s value : Text} : s.decode = .ok value ↔ (Token.tokenize s).2 = [] ∧
    (Token.tokenize s).1.foldlM Token.nest? [] = some [] ∧
      value = (Token.decodedRow (Token.tokenize s).1).flatMap Token.raw := by
  -- Decoding gets over the tokens exactly if their brackets nest.
  have hopen : _ = (Token.tokenize s).1.foldlM Token.nest? [] :=
    Decoding.map_fst_foldlM .start (Token.tokenize s).1
  rw [decode_eq_ok, ← hopen, Token.decodedRow, List.flatMap_map]
  refine and_congr_right fun _ => ?_
  constructor
  · rintro ⟨content, hfold, rfl⟩
    rw [hfold]
    exact ⟨rfl, Decoding.decoded_foldlM hfold⟩
  · rintro ⟨hnest, rfl⟩
    obtain ⟨⟨outer, content⟩, hfold, houter⟩ := Option.map_eq_some_iff.1 hnest
    rw [List.map_eq_nil_iff] at houter
    cases houter
    exact ⟨content, hfold, Decoding.decoded_foldlM hfold⟩

end Text

/-! ## Decoded tokens -/

namespace Token

variable {ts : List Token}

theorem map_snd_marked (around : Surroundings) (ts : List Token) :
    (marked around ts).map Prod.snd = ts := by
  induction ts generalizing around with
  | nil => rfl
  | cons t ts ih => rw [marked, List.map_cons, ih]

theorem next_decoded (around : Surroundings) (kept : Bool) (t : Token) :
    around.next (t.decoded kept) = around.next t := by
  cases t with
  | run raw =>
    cases kept with
    | true => rfl
    | false => exact congrArg (Surroundings.mk around.groups) (endsInUrl_decodeRun raw)
  | _ => rfl

theorem next_underscored (around : Surroundings) (t : Token) :
    around.next t.underscored = around.next t := by
  cases t with
  | run raw => exact congrArg (Surroundings.mk around.groups) (endsInUrl_underscored raw)
  | _ => rfl

/-- After decoding, the same tokens are kept as they are. -/
theorem marked_decoded (around : Surroundings) (ts : List Token) :
    marked around ((marked around ts).map fun p => p.2.decoded p.1)
      = (marked around ts).map fun p => (p.1, p.2.decoded p.1) := by
  induction ts generalizing around with
  | nil => rfl
  | cons t ts ih => simp only [marked, List.map_cons, next_decoded, ih]

theorem marked_underscored (around : Surroundings) (ts : List Token) :
    marked around (ts.map underscored)
      = (marked around ts).map fun p => (p.1, p.2.underscored) := by
  induction ts generalizing around with
  | nil => rfl
  | cons t ts ih => simp only [marked, List.map_cons, next_underscored, ih]

theorem nest?_decoded (stack : List Bracket) (kept : Bool) (t : Token) :
    nest? stack (t.decoded kept) = nest? stack t := by
  cases t <;> rfl

theorem nest?_underscored (stack : List Bracket) (t : Token) :
    nest? stack t.underscored = nest? stack t := by
  cases t <;> rfl

theorem foldlM_nest?_decodedRow (stack : List Bracket) (ts : List Token) :
    (decodedRow ts).foldlM nest? stack = ts.foldlM nest? stack := by
  conv_rhs => rw [← map_snd_marked .outside ts, List.foldlM_map]
  rw [decodedRow, List.foldlM_map]
  simp only [nest?_decoded]

theorem foldlM_nest?_underscored (stack : List Bracket) (ts : List Token) :
    (ts.map underscored).foldlM nest? stack = ts.foldlM nest? stack := by
  rw [List.foldlM_map]
  simp only [nest?_underscored]

/-- One run is decoded to one run. -/
theorem takeRun_decodeRun {s : Text} (h : takeRun s = (s, [])) :
    takeRun (decodeRun s) = (decodeRun s, []) := by
  refine run_induction rfl (fun c rest hc ih => ?_) (fun c rest hc ih => ?_) h
  · rw [decodeRun]
    split
    · rw [takeRun_cons (by decide), ih]
    · rw [takeRun_escaped hc, ih]
  · have hplain : isPlain (if c = '_' then ' ' else c) = true := by
      split
      · rfl
      · exact hc
    rw [decodeRun_cons_of_ne (Nesting.plain_ne_backslash hc), takeRun_cons hplain, ih]

theorem IsWhole.decoded {t : Token} (h : t.IsWhole) (kept : Bool) : (t.decoded kept).IsWhole := by
  cases t with
  | run raw =>
    cases kept with
    | true => exact h
    | false =>
      obtain ⟨hrun, hne⟩ := next?_run.1 h
      refine next?_run.2 ⟨takeRun_decodeRun hrun, ?_⟩
      fun_cases decodeRun raw <;> simp_all
  | _ => exact h

theorem isRun_decoded (kept : Bool) (t : Token) : (t.decoded kept).isRun = t.isRun := by
  cases t <;> rfl

/-- The decoded tokens of a row are a row. -/
theorem Row.decoded (h : Row ts) (around : Surroundings) :
    Row ((marked around ts).map fun p => p.2.decoded p.1) := by
  induction h generalizing around with
  | nil => exact .nil
  | @cons t ts hwhole hapart _ ih =>
    refine .cons (hwhole.decoded _) (fun hrun => ?_) (ih _)
    rw [isRun_decoded] at hrun
    cases ts with
    | nil => rfl
    | cons u us =>
      have := hapart hrun
      simpa [marked, isRun_decoded] using this

end Token

namespace Text

variable {s value : Text}

/-- The tokens of a decoded value are the decoded tokens. -/
theorem tokenize_of_decode (h : s.decode = .ok value) :
    Token.tokenize value = (Token.decodedRow (Token.tokenize s).1, []) := by
  rw [(decode_eq_ok_iff.1 h).2.2]
  exact Token.tokenize_of_row ((Token.row_tokenize s).decoded .outside)

/-- What was decoded can be decoded again. -/
theorem exists_decode_of_decode (h : s.decode = .ok value) : ∃ value', value.decode = .ok value' := by
  refine ⟨_, decode_eq_ok_iff.2 ⟨?_, ?_, rfl⟩⟩
  · rw [tokenize_of_decode h]
  · rw [tokenize_of_decode h, Token.foldlM_nest?_decodedRow]
    exact (decode_eq_ok_iff.1 h).2.1

end Text

end UtilityCss
