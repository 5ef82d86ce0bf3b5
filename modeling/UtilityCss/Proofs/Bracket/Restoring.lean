import UtilityCss.Proofs.Bracket.Kept

/-!
# Decoded values, written and decoded again

A decoded value is written with underscores for its spaces. Decoding that gives the value again
only if no token of it loses or gains anything on the way. In a run, an underscore would become a
space, and a space behind a backslash would lose the backslash. In quoted parts, and in groups
behind `url`, which are kept as they are, a space would stay an underscore. A value without such
tokens is *restorable*.

* `Text.decode_underscored`: which decoded values are decoded again to themselves;
* `Text.underscored_of_decode`: what such a value was decoded from, up to spaces.
-/

namespace UtilityCss

/-- Whether a decoded run is decoded to itself again after it was written with underscores for its
    spaces: it has no underscore, and no backslash takes a space along. -/
def isSteadyRun : Text → Bool
  | [] => true
  | '\\' :: c :: rest => c ≠ ' ' && c ≠ '_' && isSteadyRun rest
  | c :: rest => c ≠ '_' && isSteadyRun rest

theorem decodeRun_underscored {s : Text} :
    decodeRun (underscored s) = s ↔ isSteadyRun s = true := by
  fun_induction isSteadyRun s with
  | case1 => simp [decodeRun]
  | case2 c rest ih =>
    rw [underscored_cons_of_ne (by decide), underscored_cons, decodeRun]
    by_cases hc : c = ' ' ∨ c = '_'
    · -- The backslash is lost.
      have hu : (if c = ' ' then '_' else c) = '_' := by grind
      rcases hc with rfl | rfl <;> simp
    · rw [not_or] at hc
      rw [if_neg hc.1, if_neg hc.2]
      simp [hc, ih]
  | case3 c rest hne ih =>
    have hdecode : decodeRun (underscored (c :: rest))
        = (if c = ' ' ∨ c = '_' then ' ' else c) :: decodeRun (underscored rest) := by
      rw [underscored_cons, decodeRun]
      · grind
      · intro c' rest' hc hrest
        cases rest with
        | nil => cases hrest
        | cons c'' rest'' => exact hne c'' rest'' (by grind) rfl
    rw [hdecode, List.cons.injEq, ih]
    by_cases hc : c = '_' <;> grind

/-- What a steady run was decoded from, up to spaces. -/
theorem underscored_decodeRun {s : Text} (h : isSteadyRun (decodeRun s) = true) :
    underscored (decodeRun s) = underscored s := by
  fun_induction decodeRun s with
  | case1 => rfl
  | case2 => simp [isSteadyRun] at h
  | case3 c rest hc ih =>
    rw [isSteadyRun, Bool.and_eq_true] at h
    rw [underscored_cons, underscored_cons, ih h.2, underscored_cons, underscored_cons]
  | case4 c rest hne ih =>
    have hspace : (if (if c = '_' then ' ' else c) = ' ' then '_' else if c = '_' then ' ' else c)
        = if c = ' ' then '_' else c := by
      grind
    rw [underscored_cons, underscored_cons, hspace]
    by_cases hc : c = '\\'
    · cases rest with
      | nil => rfl
      | cons c' rest => exact absurd rfl (hne c' rest hc)
    · rw [isSteadyRun] at h
      · rw [ih (Bool.and_eq_true_iff.1 h).2]
      · grind

theorem length_decodeRun_le (s : Text) : (decodeRun s).length ≤ s.length := by
  fun_induction decodeRun s with
  | case1 => exact Nat.le_refl _
  | case2 rest ih =>
    simp only [List.length_cons]
    omega
  | case3 c rest _ ih =>
    simp only [List.length_cons]
    omega
  | case4 c rest _ ih => exact Nat.succ_le_succ ih

namespace Token

/-- Whether a token is decoded to itself again after it was written with underscores for its
    spaces; `kept` says whether it is kept as it is. -/
def isFaithful (kept : Bool) : Token → Bool
  | run raw => if kept then !raw.contains ' ' else isSteadyRun raw
  | quoted raw => !raw.contains ' '
  | _ => true

variable {kept : Bool} {t : Token}

theorem decoded_underscored :
    (t.underscored.decoded kept).raw = t.raw ↔ t.isFaithful kept = true := by
  have hspace {raw : Text} : UtilityCss.underscored raw = raw ↔ (!raw.contains ' ') = true := by
    rw [underscored_eq_self, Bool.not_eq_true', List.contains_eq_mem, decide_eq_false_iff_not]
  cases t with
  | run raw =>
    cases kept with
    | true => exact hspace
    | false => exact decodeRun_underscored
  | quoted raw => exact hspace
  | opener b => exact iff_of_true rfl rfl
  | closer b => exact iff_of_true rfl rfl

theorem length_decoded_underscored_le (kept : Bool) (t : Token) :
    (t.underscored.decoded kept).raw.length ≤ t.raw.length := by
  have hunderscored (raw : Text) : (UtilityCss.underscored raw).length ≤ raw.length :=
    Nat.le_of_eq (length_underscored raw)
  cases t with
  | run raw =>
    cases kept with
    | true => exact hunderscored raw
    | false => exact Nat.le_trans (length_decodeRun_le _) (hunderscored raw)
  | quoted raw => exact hunderscored raw
  | opener b => exact Nat.le_refl _
  | closer b => exact Nat.le_refl _

/-- What a faithful token was decoded from, up to spaces. -/
theorem underscored_decoded (h : (t.decoded kept).isFaithful kept = true) :
    UtilityCss.underscored (t.decoded kept).raw = UtilityCss.underscored t.raw := by
  cases t with
  | run raw =>
    cases kept with
    | true => rfl
    | false => exact underscored_decodeRun h
  | _ => rfl

end Token

/-- Texts that are no longer than others, one by one, are the same if they are the same in a
    row. -/
theorem flatMap_eq_flatMap_iff {α : Type} {f g : α → Text} {l : List α}
    (hle : ∀ x, (f x).length ≤ (g x).length) :
    l.flatMap f = l.flatMap g ↔ ∀ x ∈ l, f x = g x := by
  have hlength (l : List α) : (l.flatMap f).length ≤ (l.flatMap g).length := by
    induction l with
    | nil => exact Nat.le_refl _
    | cons x l ih =>
      rw [List.flatMap_cons, List.flatMap_cons, List.length_append, List.length_append]
      exact Nat.add_le_add (hle x) ih
  induction l with
  | nil => simp
  | cons x l ih =>
    rw [List.flatMap_cons, List.flatMap_cons, List.forall_mem_cons]
    constructor
    · intro h
      have hsum := congrArg List.length h
      rw [List.length_append, List.length_append] at hsum
      have hx := hle x
      have hl := hlength l
      obtain ⟨hx, hl⟩ := List.append_inj h (by omega)
      exact ⟨hx, ih.1 hl⟩
    · rintro ⟨hx, hl⟩
      rw [hx, ih.2 hl]

namespace Text

/-- Whether a decoded value is decoded to itself again after it was written with underscores for
    its spaces: all its tokens are. -/
def isRestorable (value : Text) : Bool :=
  (Token.marked .outside (Token.tokenize value).1).all fun p => p.2.isFaithful p.1

variable {s value : Text}

theorem decode_underscored_iff :
    (underscored s).decode = .ok s ↔ (∃ value, s.decode = .ok value) ∧ s.isRestorable = true := by
  have hraw := Token.tokenize_append s
  simp only [decode_eq_ok_iff, Token.tokenize_underscored, underscored_eq_nil,
    Token.foldlM_nest?_underscored, exists_and_left, exists_eq, and_true, and_assoc]
  refine and_congr_right fun hrest => and_congr_right fun _ => ?_
  rw [hrest, List.append_nil] at hraw
  have hs (t : Text) : s = t ↔
      t = (Token.marked .outside (Token.tokenize s).1).flatMap fun p => p.2.raw := by
    rw [← List.flatMap_map, Token.map_snd_marked, hraw, eq_comm]
  -- No token gets longer on the way, so the whole is the same only if every token is.
  have heq := @flatMap_eq_flatMap_iff (Bool × Token) (fun p => (p.2.underscored.decoded p.1).raw)
    (fun p => p.2.raw) (Token.marked .outside (Token.tokenize s).1)
    fun p => Token.length_decoded_underscored_le p.1 p.2
  rw [hs, Token.decodedRow, Token.marked_underscored, List.map_map, List.flatMap_map, isRestorable,
    List.all_eq_true]
  exact heq.trans (forall₂_congr fun p _ => Token.decoded_underscored)

/-- *Restorable values are restored*: a decoded value, written with underscores for its spaces, is
    decoded to itself exactly if it is restorable. -/
theorem decode_underscored (h : s.decode = .ok value) :
    (underscored value).decode = .ok value ↔ value.isRestorable = true := by
  rw [decode_underscored_iff]
  exact and_iff_right (exists_decode_of_decode h)

/-- A restorable value is, up to spaces, what it was decoded from. -/
theorem underscored_of_decode (h : s.decode = .ok value) (hvalue : value.isRestorable = true) :
    underscored value = underscored s := by
  obtain ⟨hrest, _, hvalue'⟩ := decode_eq_ok_iff.1 h
  have hraw := Token.tokenize_append s
  rw [hrest, List.append_nil] at hraw
  rw [isRestorable, tokenize_of_decode h, Token.decodedRow, Token.marked_decoded, List.all_map,
    List.all_eq_true] at hvalue
  have hunderscored {α : Type} (f : α → Text) (l : List α) :
      underscored (l.flatMap f) = l.flatMap fun x => underscored (f x) := List.map_flatMap
  conv_rhs => rw [← hraw, ← Token.map_snd_marked .outside (Token.tokenize s).1, List.flatMap_map]
  rw [hvalue', Token.decodedRow, List.flatMap_map, hunderscored, hunderscored]
  exact List.flatMap_congr fun p hp => Token.underscored_decoded (hvalue p hp)

end Text

end UtilityCss
