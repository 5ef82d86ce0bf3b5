import UtilityCss.Proofs.Bracket.Row
import UtilityCss.Proofs.Bracket.Underscored

/-!
# Balance and decoding

Two scans look at the same brackets. The balance of a class is followed from character to
character, with the groups and the quote that stand open (`Nesting`). A bracketed value falls into
tokens, and its groups have to close in order over them. The two agree on what stands inside a
group, as quotes count there for both.

* `Nesting.strictRun?_of_next?`: the first scan goes over a token in one step of the second, and
  `strictRun?_ne_of_next?_eq_none`: it does not come out of a text where no token starts, as
  there is a quote that does not close or a backslash that takes the last closer with it;
* `Nesting.LeadsOut`: a text closes what stands open in it, and its own bracket behind it;
* `Nesting.leadsOut_and_iff`: for two kinds of brackets at once, this says that the groups of the
  tokens close in order.

One kind of bracket does not tell: the text `](a)[` closes nothing of its own, and between square
brackets it becomes the groups `[]` and `[]` with a third between them. But no closer matches two
kinds of brackets.
-/

namespace UtilityCss

/-! ## The groups of the tokens -/

namespace Token

variable {stack stack' : List Bracket} {t : Token}

/-- A group around all others does not matter to a token that closes none or one of those. -/
theorem nest?_concat (h : nest? stack t = some stack') (b : Bracket) :
    nest? (stack ++ [b]) t = some (stack' ++ [b]) := by
  cases t with
  | run | quoted | opener =>
    cases h
    rfl
  | closer b' =>
    obtain ⟨hhead, h⟩ := Option.ite_none_right_eq_some.1 h
    cases h
    obtain ⟨outer, rfl⟩ := List.head?_eq_some_iff.1 hhead
    exact if_pos rfl

/-- A token that closes what is not open cannot close two kinds of groups around it. -/
theorem nest?_concat_eq_none (h : nest? stack t = none) {b₁ b₂ : Bracket} (hb : b₁ ≠ b₂) :
    nest? (stack ++ [b₁]) t = none ∨ nest? (stack ++ [b₂]) t = none := by
  cases t with
  | run | quoted | opener => cases h
  | closer b =>
    have hhead : stack.head? ≠ some b := fun hhead => by
      rw [nest?, if_pos hhead] at h
      cases h
    cases stack with
    | nil =>
      by_cases hb₁ : b₁ = b
      · right
        exact if_neg fun hb₂ => hb (hb₁.trans (Option.some.inj hb₂).symm)
      · left
        exact if_neg fun hb' => hb₁ (Option.some.inj hb')
    | cons _ _ => exact .inl (if_neg hhead)

theorem length_le_of_nest? (h : nest? stack t = some stack') :
    stack'.length ≤ stack.length + t.raw.length := by
  cases t with
  | run | quoted =>
    cases h
    exact Nat.le_add_right _ _
  | opener =>
    cases h
    exact Nat.le_refl _
  | closer b =>
    obtain ⟨_, h⟩ := Option.ite_none_right_eq_some.1 h
    cases h
    rw [List.length_tail]
    omega

/-! ## Where no token starts -/

/-- No token starts at a quote that does not close, or at a last backslash. -/
theorem exists_of_next?_eq_none {s : Text} (h : next? s = none) (hne : s ≠ []) (hs : '\n' ∉ s) :
    (∃ q rest, s = q :: rest ∧ isQuote q = true ∧ takeQuoted q rest = none) ∨ s = ['\\'] := by
  obtain ⟨c, rest, rfl⟩ := List.exists_cons_of_ne_nil hne
  rw [next?] at h
  split at h
  · cases h
  · cases h
  · next ho hcl =>
    split at h
    · next hq =>
      refine .inl ⟨c, rest, rfl, hq, ?_⟩
      cases hquoted : takeQuoted c rest with
      | none => rfl
      | some p =>
        rw [hquoted] at h
        cases h
    · next hq =>
      have hrun : (takeRun (c :: rest)).1 = [] := by
        split at h
        · next hrun => rw [hrun]
        · cases h
      have hc : c = '\\' := by
        by_contra hc
        have hplain : isPlain c = true := by
          simp [isPlain, ho, hcl, hq, hc]
        rw [takeRun_cons hplain] at hrun
        cases hrun
      subst hc
      cases rest with
      | nil => exact .inr rfl
      | cons c rest =>
        rw [takeRun_escaped fun hc => hs (hc ▸ .tail _ (.head _))] at hrun
        cases hrun

end Token

/-! ## The scan over one token -/

namespace Nesting

open Token

variable {limit : Int} {stack : List Bracket} {s after : Text}

/-- Inside a group, a quote opens. -/
theorem strictStep?_quote {q : Char} (hq : isQuote q = true) (hstack : stack ≠ []) :
    strictStep? limit ⟨stack, none⟩ q = some ⟨stack, some q⟩ := by
  simp [strictStep?, hq, hstack]

/-- The scan goes over a run as if it were not there. -/
theorem strictRun?_run {raw : Text} (h : takeRun raw = (raw, [])) (u : Text) :
    strictRun? limit ⟨stack, none⟩ (raw ++ u) = strictRun? limit ⟨stack, none⟩ u := by
  refine run_induction rfl (fun c rest _ ih => ?_) (fun c rest hc ih => ?_) h
  · rw [List.cons_append, List.cons_append, strictRun?, ih]
  · rw [List.cons_append, strictRun?_cons (plain_ne_backslash hc), strictStep?_of_isPlain rfl hc,
      Option.bind_some, ih]

/-- In a quote, the scan goes on to the quote that closes it. -/
theorem strictRun?_takeQuoted {q : Char} {part : Text}
    (h : takeQuoted q s = some (part, after)) (hq : isQuote q = true) (u : Text) :
    strictRun? limit ⟨stack, some q⟩ (part ++ u) = strictRun? limit ⟨stack, none⟩ u := by
  fun_induction takeQuoted q s generalizing part after with
  | case1 | case2 | case3 | case6 | case7 => cases h
  | case4 c rest _ part' after' hrest ih =>
    cases h
    rw [List.cons_append, List.cons_append, strictRun?, ih hrest]
  | case5 =>
    cases h
    have hbackslash := quote_ne_backslash hq
    simp [strictRun?_cons hbackslash, strictStep?]
  | case8 c rest _ hcq hbackslash part' after' hrest ih =>
    cases h
    rw [List.cons_append, strictRun?_cons hbackslash, strictStep?]
    dsimp only
    rw [if_neg hcq, Option.bind_some, ih hrest]

/-- The scan goes over a token, and the groups that stand open go by the token alone. -/
theorem strictRun?_of_next? {t : Token} (h : next? s = some (t, after)) (hstack : stack ≠ [])
    (hroom : (stack.length + 1 : Int) ≤ limit) (u : Text) :
    strictRun? limit ⟨stack, none⟩ (t.raw ++ u)
      = (nest? stack t).bind fun stack' => strictRun? limit ⟨stack', none⟩ u := by
  cases t with
  | run raw =>
    have hself := takeRun_self s
    rw [(next?_run.1 h).1] at hself
    exact strictRun?_run hself u
  | quoted raw =>
    obtain ⟨q, rest, part, rfl, hq, hpart, rfl⟩ := next?_quoted.1 h
    have hbackslash := quote_ne_backslash hq
    rw [Token.raw, List.cons_append, strictRun?_cons hbackslash, strictStep?_quote hq hstack,
      Option.bind_some, strictRun?_takeQuoted hpart hq]
    rfl
  | opener b =>
    rw [Token.raw, List.singleton_append, strictRun?_cons (opener_ne_backslash b),
      strictStep?_opener hroom]
    rfl
  | closer b =>
    rw [Token.raw, List.singleton_append, strictRun?_cons (closer_ne_backslash b),
      strictStep?_closer, nest?]
    split <;> rfl

/-- A quote that does not close stands open to the end, and the closer at the end is in it. -/
theorem strictRun?_of_takeQuoted_eq_none {q : Char} (h : takeQuoted q s = none)
    (hq : isQuote q = true) (hs : '\n' ∉ s) (b : Bracket) :
    strictRun? limit ⟨stack, some q⟩ (s ++ [b.closer]) = some ⟨stack, some q⟩ := by
  fun_induction takeQuoted q s with
  | case1 =>
    have hne : b.closer ≠ q := by
      rintro rfl
      cases b <;> cases hq
    simp [strictRun?_cons (closer_ne_backslash b), strictStep?, strictRun?, hne]
  | case2 rest => exact absurd (.tail _ (.head _)) hs
  | case3 c rest _ hrest ih =>
    rw [List.cons_append, List.cons_append, strictRun?]
    exact ih hrest fun hm => hs (.tail _ (.tail _ hm))
  | case4 | case5 | case8 => cases h
  | case6 rest hne _ =>
    -- A backslash with a character behind it is the second case, so this one is the last character.
    cases rest with
    | nil => rfl
    | cons c rest => exact absurd rfl (hne c rest rfl)
  | case7 c rest _ hcq hbackslash hrest ih =>
    rw [List.cons_append, strictRun?_cons hbackslash, strictStep?]
    dsimp only
    rw [if_neg hcq, Option.bind_some]
    exact ih hrest fun hm => hs (.tail _ hm)

/-- Where no token starts, the scan stays inside. -/
theorem strictRun?_ne_of_next?_eq_none (h : next? s = none) (hne : s ≠ []) (hs : '\n' ∉ s)
    (hstack : stack ≠ []) (b : Bracket) :
    strictRun? limit ⟨stack, none⟩ (s ++ [b.closer]) ≠ some outside := by
  rcases exists_of_next?_eq_none h hne hs with ⟨q, rest, rfl, hq, hquoted⟩ | rfl
  · have hbackslash := quote_ne_backslash hq
    rw [List.cons_append, strictRun?_cons hbackslash, strictStep?_quote hq hstack,
      Option.bind_some,
      strictRun?_of_takeQuoted_eq_none hquoted hq (fun hm => hs (.tail _ hm)) b]
    rintro ⟨⟩
  · intro hout
    exact hstack (congrArg Nesting.stack (Option.some.inj hout))

/-! ## The scan out of a bracket -/

/-- Inside a bracket and the groups of a stack, a text leads out of all of them with the closer of
    the bracket behind it. -/
def LeadsOut (limit : Int) (b : Bracket) (stack : List Bracket) (s : Text) : Prop :=
  strictRun? limit ⟨stack ++ [b], none⟩ (s ++ [b.closer]) = some outside

variable {b : Bracket}

theorem leadsOut_nil : LeadsOut limit b stack [] ↔ stack = [] := by
  rw [LeadsOut, List.nil_append, strictRun?_cons (closer_ne_backslash b), strictStep?_closer]
  cases stack with
  | nil => simp [strictRun?, outside]
  | cons b' stack =>
    by_cases hb : b' = b <;> simp [strictRun?, outside, hb]

theorem leadsOut_iff_bind {t : Token} (h : next? s = some (t, after))
    (hroom : (stack.length + 2 : Int) ≤ limit) :
    LeadsOut limit b stack s ↔ ((nest? (stack ++ [b]) t).bind fun stack' =>
      strictRun? limit ⟨stack', none⟩ (after ++ [b.closer])) = some outside := by
  have hroom' : ((stack ++ [b]).length + 1 : Int) ≤ limit := by
    rw [List.length_append, List.length_singleton]
    omega
  rw [LeadsOut, ← next?_append h, List.append_assoc,
    strictRun?_of_next? h (List.concat_ne_nil b stack) hroom']

theorem leadsOut_of_nest? {t : Token} {stack' : List Bracket} (h : next? s = some (t, after))
    (ht : nest? stack t = some stack') (hroom : (stack.length + 2 : Int) ≤ limit) :
    LeadsOut limit b stack s ↔ LeadsOut limit b stack' after := by
  rw [leadsOut_iff_bind h hroom, nest?_concat ht, Option.bind_some, LeadsOut]

theorem not_leadsOut_of_nest? {t : Token} (h : next? s = some (t, after))
    (ht : nest? (stack ++ [b]) t = none) (hroom : (stack.length + 2 : Int) ≤ limit) :
    ¬ LeadsOut limit b stack s := by
  rw [leadsOut_iff_bind h hroom, ht]
  rintro ⟨⟩

/-- What leads out of two kinds of brackets falls into tokens, and they close what stands open. -/
theorem leadsOut_and_iff {b₁ b₂ : Bracket} (hb : b₁ ≠ b₂) (hs : '\n' ∉ s)
    (hroom : (stack.length + s.length + 1 : Int) ≤ limit) :
    LeadsOut limit b₁ stack s ∧ LeadsOut limit b₂ stack s ↔
      (tokenize s).2 = [] ∧ (tokenize s).1.foldlM nest? stack = some [] := by
  -- By induction on the tokens, for every stack: one token changes it as it changes the stack with
  -- the bracket below, until it closes what is not open.
  fun_induction tokenize s generalizing stack with
  | case1 s hnone =>
    by_cases hne : s = []
    · subst hne
      rw [leadsOut_nil, leadsOut_nil, and_self]
      simp
    · refine iff_of_false (fun h => ?_) fun h => hne h.1
      exact strictRun?_ne_of_next?_eq_none hnone hne hs (List.concat_ne_nil b₁ stack) b₁ h.1
  | case2 s t after hnext _ ts rest he ih =>
    have happend := next?_append hnext
    have hlength : s.length = t.raw.length + after.length := by
      rw [← happend, List.length_append]
    have hpos : 0 < t.raw.length := List.length_pos_iff.2 (raw_ne_nil_of_next? hnext)
    have hafter : '\n' ∉ after := fun hm => hs (happend ▸ List.mem_append_right _ hm)
    have hroom' : (stack.length + 2 : Int) ≤ limit := by omega
    rw [List.foldlM_cons]
    cases hstep : nest? stack t with
    | some stack' =>
      have hle := length_le_of_nest? hstep
      have hspace : (stack'.length + after.length + 1 : Int) ≤ limit := by omega
      have hrest := ih hafter hspace
      rw [he] at hrest
      rw [leadsOut_of_nest? hnext hstep hroom', leadsOut_of_nest? hnext hstep hroom']
      exact hrest
    | none =>
      refine iff_of_false (fun h => ?_) fun h => by cases h.2
      rcases nest?_concat_eq_none hstep hb with hnone | hnone
      · exact not_leadsOut_of_nest? hnext hnone hroom' h.1
      · exact not_leadsOut_of_nest? hnext hnone hroom' h.2

end Nesting

/-! ## Texts in brackets -/

namespace Text

variable {s : Text} {limit : Int}

theorem isBalanced_enclose_iff (b : Bracket) (hlimit : 1 ≤ limit) :
    (b.enclose s).isBalanced limit ↔ Nesting.LeadsOut limit b [] s := by
  have hs : b.enclose s = b.opener :: (s ++ [b.closer]) := rfl
  rw [isBalanced_iff, hs, Nesting.strictRun?_cons (Nesting.opener_ne_backslash b),
    Nesting.outside, Nesting.strictStep?_opener (by simpa using hlimit), Option.bind_some]
  rfl

/-- A text can be decoded exactly if it is balanced between square and between round brackets, with
    room for all groups that it might open. -/
theorem exists_decode_iff_isBalanced (hs : '\n' ∉ s) (hlimit : (s.length : Int) < limit) :
    (∃ value, s.decode = .ok value) ↔
      (Bracket.square.enclose s).isBalanced limit = true ∧
        (Bracket.round.enclose s).isBalanced limit = true := by
  have hone : 1 ≤ limit := by omega
  have hroom : (([] : List Bracket).length + s.length + 1 : Int) ≤ limit := by
    rw [List.length_nil]
    omega
  rw [isBalanced_enclose_iff _ hone, isBalanced_enclose_iff _ hone,
    Nesting.leadsOut_and_iff (by decide) hs hroom, exists_decode_iff, scan,
    Token.foldlM_nest?_filter]

/-- A text with escaped closers, and with brackets in quotes, inside of groups of all kinds. -/
theorem exists_decode_iff_isBalanced_of_nested :
    '\n' ∉ "a(\\)[']\\'('])\"(\"\x7b\\]\x7d".toList ∧
      (("a(\\)[']\\'('])\"(\"\x7b\\]\x7d".toList.length : Nat) : Int) < 21 ∧
      ∃ value, Text.decode "a(\\)[']\\'('])\"(\"\x7b\\]\x7d" = .ok value := by
  have hs : '\n' ∉ "a(\\)[']\\'('])\"(\"\x7b\\]\x7d".toList := by decide
  have hlimit : (("a(\\)[']\\'('])\"(\"\x7b\\]\x7d".toList.length : Nat) : Int) < 21 := by
    decide
  exact ⟨hs, hlimit, (exists_decode_iff_isBalanced hs hlimit).2 (by decide)⟩

-- With one kind of brackets around it, a text may be balanced that closes what it does not open.
example : (Bracket.square.enclose "](a)[").isBalanced 6 = true ∧
    (Bracket.round.enclose "](a)[").isBalanced 6 = false := by decide

end Text

end UtilityCss
