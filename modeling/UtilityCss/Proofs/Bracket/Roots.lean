import UtilityCss.Bracket.Root

/-!
# The longest root

A text may split in several ways into a name and the text of its value, and the first split
that is offered counts. `Text.LongestRoot` says which one that is without a search: the name is
known, it ends before a hyphen in front of every bracket, and no longer name like this is known.
The name `@`, which needs no hyphen after it, counts only if no other name does.

* `mem_hyphenSplits`, `pairwise_hyphenSplits`: all splits at hyphens, by decreasing length of
  the name;
* `hyphenRoots`, `atRoot`: the splits that are offered, at hyphens and behind the name `@`;
* `head?_rootSplits`, `exists_longestRoot`: the first split offered is the one with the longest
  root, and there is one behind every known name.
-/

namespace UtilityCss

namespace Text

/-- Whether a text holds no bracket that values begin with. -/
def BracketFree (s : Text) : Prop :=
  '[' ∉ s ∧ '(' ∉ s

/-- A text is a known name, a hyphen, and a text for its value, and the name is the longest of
    its kind; or it is the name `@` with the text behind it, and there is no name of that kind. -/
inductive LongestRoot (isRoot : Text → Bool) (s root value : Text) : Prop
  | hyphen : s = root ++ '-' :: value → root ≠ [] → BracketFree root → isRoot root = true →
      (∀ longer rest, s = longer ++ '-' :: rest → root.length < longer.length →
        BracketFree longer → isRoot longer = false) → LongestRoot isRoot s root value
  | at : root = ['@'] → s = '@' :: value → value ≠ [] → isRoot ['@'] = true →
      (∀ name rest, s = name ++ '-' :: rest → name ≠ [] → BracketFree name →
        isRoot name = false) → LongestRoot isRoot s root value

theorem LongestRoot.isRoot {isRoot : Text → Bool} {s root value : Text}
    (h : LongestRoot isRoot s root value) : isRoot root = true := by
  cases h with
  | hyphen _ _ _ hroot => exact hroot
  | «at» hat _ _ hroot => exact hat ▸ hroot

/-! ## Splits at hyphens -/

theorem bracketFree_cons {c : Char} {s : Text} :
    BracketFree (c :: s) ↔ ¬ (c = '[' ∨ c = '(') ∧ BracketFree s := by
  simp only [BracketFree, List.mem_cons, not_or, @eq_comm _ c]
  exact and_and_and_comm

theorem mem_hyphenSplits {s root value : Text} :
    (root, value) ∈ hyphenSplits s ↔ s = root ++ '-' :: value ∧ BracketFree root := by
  induction s generalizing root with
  | nil => simp [hyphenSplits]
  | cons c s ih =>
    rw [hyphenSplits]
    by_cases hc : c = '[' ∨ c = '('
    · -- From a bracket on nothing is offered, and no name reaches over it.
      rw [if_pos hc]
      constructor
      · intro h
        cases h
      · rintro ⟨h, hb⟩
        cases root with
        | nil =>
          obtain ⟨rfl, _⟩ := List.cons.inj h
          rcases hc with hc | hc <;> cases hc
        | cons r root =>
          obtain ⟨rfl, _⟩ := List.cons.inj h
          exact absurd hc (bracketFree_cons.1 hb).1
    · rw [if_neg hc, List.mem_append, List.mem_map]
      cases root with
      | nil =>
        by_cases hh : c = '-'
        · simp [hh, BracketFree, eq_comm]
        · simp [hh]
      | cons r root =>
        constructor
        · rintro (⟨⟨root', value'⟩, h, he⟩ | h)
          · cases he
            obtain ⟨rfl, hb⟩ := ih.1 h
            exact ⟨rfl, bracketFree_cons.2 ⟨hc, hb⟩⟩
          · split at h <;> simp at h
        · rintro ⟨h, hb⟩
          obtain ⟨rfl, rfl⟩ := List.cons.inj h
          exact .inl ⟨(root, value), ih.2 ⟨rfl, (bracketFree_cons.1 hb).2⟩, rfl⟩

/-- The splits at hyphens come by decreasing length of the name. -/
theorem pairwise_hyphenSplits (s : Text) :
    (hyphenSplits s).Pairwise fun a b => b.1.length < a.1.length := by
  induction s with
  | nil => exact .nil
  | cons c s ih =>
    rw [hyphenSplits]
    split
    · exact .nil
    · rw [List.pairwise_append, List.pairwise_map]
      refine ⟨ih.imp Nat.succ_lt_succ, ?_, ?_⟩
      · split
        · exact List.pairwise_singleton _ _
        · exact .nil
      · -- The empty name, if it is offered, comes last.
        intro a ha b hb
        obtain ⟨a', _, rfl⟩ := List.mem_map.1 ha
        split at hb
        · rw [List.mem_singleton.1 hb]
          exact Nat.succ_pos _
        · cases hb

/-- The splits at hyphens whose name is known. -/
def hyphenRoots (s : Text) (isRoot : Text → Bool) : List (Text × Text) :=
  (hyphenSplits s).filter fun split => !split.1.isEmpty && isRoot split.1

theorem mem_hyphenRoots {s root value : Text} {isRoot : Text → Bool} :
    (root, value) ∈ hyphenRoots s isRoot ↔
      s = root ++ '-' :: value ∧ root ≠ [] ∧ BracketFree root ∧ isRoot root = true := by
  simp only [hyphenRoots, List.mem_filter, mem_hyphenSplits, Bool.and_eq_true, Bool.not_eq_true',
    List.isEmpty_eq_false_iff]
  exact ⟨fun ⟨⟨hs, hb⟩, hn, hr⟩ => ⟨hs, hn, hb, hr⟩, fun ⟨hs, hn, hb, hr⟩ => ⟨⟨hs, hb⟩, hn, hr⟩⟩

theorem pairwise_hyphenRoots (s : Text) (isRoot : Text → Bool) :
    (hyphenRoots s isRoot).Pairwise fun a b => b.1.length < a.1.length :=
  (pairwise_hyphenSplits s).filter _

/-! ## The first split offered -/

/-- In a list by decreasing measure, the first element is the one with the greatest measure. -/
theorem head?_eq_some_of_pairwise {α : Type} {f : α → Nat} {l : List α}
    (hl : l.Pairwise fun a b => f b < f a) {a : α} :
    l.head? = some a ↔ a ∈ l ∧ ∀ b ∈ l, ¬ f a < f b := by
  cases l with
  | nil => simp
  | cons b l =>
    obtain ⟨hb, _⟩ := List.pairwise_cons.1 hl
    rw [List.head?_cons, Option.some_inj]
    constructor
    · rintro rfl
      exact ⟨List.mem_cons_self,
        List.forall_mem_cons.2 ⟨Nat.lt_irrefl _, fun c hc => Nat.lt_asymm (hb c hc)⟩⟩
    · rintro ⟨hm, hgreatest⟩
      rcases List.mem_cons.1 hm with rfl | hm
      · rfl
      · exact absurd (hb a hm) (hgreatest b List.mem_cons_self)

/-- The first split at a hyphen that is offered is the one with the longest root. -/
theorem head?_hyphenRoots {isRoot : Text → Bool} {s root value : Text} :
    (hyphenRoots s isRoot).head? = some (root, value) ↔
      s = root ++ '-' :: value ∧ root ≠ [] ∧ BracketFree root ∧ isRoot root = true ∧
        ∀ longer rest, s = longer ++ '-' :: rest → root.length < longer.length →
          BracketFree longer → isRoot longer = false := by
  rw [head?_eq_some_of_pairwise (pairwise_hyphenRoots s isRoot), mem_hyphenRoots]
  constructor
  · rintro ⟨⟨hs, hn, hb, hr⟩, hlonger⟩
    refine ⟨hs, hn, hb, hr, fun longer rest hs' hlt hb' => eq_false_of_ne_true fun hr' => ?_⟩
    have hn' : longer ≠ [] := List.ne_nil_of_length_pos (Nat.zero_lt_of_lt hlt)
    exact hlonger (longer, rest) (mem_hyphenRoots.2 ⟨hs', hn', hb', hr'⟩) hlt
  · rintro ⟨hs, hn, hb, hr, hlonger⟩
    refine ⟨⟨hs, hn, hb, hr⟩, fun ⟨longer, rest⟩ hm hlt => ?_⟩
    obtain ⟨hs', _, hb', hr'⟩ := mem_hyphenRoots.1 hm
    rw [hlonger longer rest hs' hlt hb'] at hr'
    cases hr'

/-- No split at a hyphen is offered exactly if no name in front of a hyphen is known. -/
theorem hyphenRoots_eq_nil {isRoot : Text → Bool} {s : Text} :
    hyphenRoots s isRoot = [] ↔
      ∀ name rest, s = name ++ '-' :: rest → name ≠ [] → BracketFree name →
        isRoot name = false := by
  rw [List.eq_nil_iff_forall_not_mem]
  constructor
  · intro h name rest hs hn hb
    exact eq_false_of_ne_true fun hr => h (name, rest) (mem_hyphenRoots.2 ⟨hs, hn, hb, hr⟩)
  · rintro h ⟨name, rest⟩ hm
    obtain ⟨hs, hn, hb, hr⟩ := mem_hyphenRoots.1 hm
    rw [h name rest hs hn hb] at hr
    cases hr

/-- The split of a text that begins with the name `@`, if that is known. -/
def atRoot (s : Text) (isRoot : Text → Bool) : List (Text × Text) :=
  match s with
  | '@' :: value => if !value.isEmpty && isRoot ['@'] then [(['@'], value)] else []
  | _ => []

theorem rootSplits_eq (s : Text) (isRoot : Text → Bool) :
    rootSplits s isRoot = hyphenRoots s isRoot ++ atRoot s isRoot := rfl

theorem mem_atRoot {isRoot : Text → Bool} {s root value : Text} :
    (root, value) ∈ atRoot s isRoot ↔
      root = ['@'] ∧ s = '@' :: value ∧ value ≠ [] ∧ isRoot ['@'] = true := by
  unfold atRoot
  split
  · next rest =>
    simp only [List.mem_ite_nil_right, List.mem_singleton, Prod.mk.injEq, Bool.and_eq_true,
      Bool.not_eq_true', List.isEmpty_eq_false_iff, List.cons.injEq, true_and]
    constructor
    · rintro ⟨⟨hn, hr⟩, rfl, rfl⟩
      exact ⟨rfl, rfl, hn, hr⟩
    · rintro ⟨rfl, rfl, hn, hr⟩
      exact ⟨⟨hn, hr⟩, rfl, rfl⟩
  · next h =>
    refine iff_of_false List.not_mem_nil ?_
    rintro ⟨_, rfl, _⟩
    exact h value rfl

/-- At most one split has the root `@`. -/
theorem head?_atRoot {isRoot : Text → Bool} {s : Text} {split : Text × Text} :
    (atRoot s isRoot).head? = some split ↔ split ∈ atRoot s isRoot := by
  unfold atRoot
  split
  · split
    · rw [List.head?_cons, Option.some_inj, List.mem_singleton, eq_comm]
    · simp
  · simp

/-- The first split that is offered is the one with the longest root. -/
theorem head?_rootSplits {isRoot : Text → Bool} {s root value : Text} :
    (rootSplits s isRoot).head? = some (root, value) ↔ LongestRoot isRoot s root value := by
  rw [rootSplits_eq, List.head?_append]
  constructor
  · intro h
    rcases Option.or_eq_some_iff.1 h with h | ⟨hnil, hat⟩
    · obtain ⟨hs, hn, hb, hr, hlonger⟩ := head?_hyphenRoots.1 h
      exact .hyphen hs hn hb hr hlonger
    · obtain ⟨hroot, hs, hv, hr⟩ := mem_atRoot.1 (head?_atRoot.1 hat)
      exact .at hroot hs hv hr (hyphenRoots_eq_nil.1 (List.head?_eq_none_iff.1 hnil))
  · rintro (⟨hs, hn, hb, hr, hlonger⟩ | ⟨hroot, hs, hv, hr, hnone⟩)
    · rw [head?_hyphenRoots.2 ⟨hs, hn, hb, hr, hlonger⟩]
      rfl
    · rw [hyphenRoots_eq_nil.2 hnone]
      exact head?_atRoot.2 (mem_atRoot.2 ⟨hroot, hs, hv, hr⟩)

/-- Behind a known name there is a longest one. -/
theorem exists_longestRoot {isRoot : Text → Bool} {root key : Text} (hne : root ≠ [])
    (hfree : BracketFree root) (hroot : isRoot root = true) :
    ∃ root' key', LongestRoot isRoot (root ++ '-' :: key) root' key' := by
  have hmem : (root, key) ∈ hyphenRoots (root ++ '-' :: key) isRoot :=
    mem_hyphenRoots.2 ⟨rfl, hne, hfree, hroot⟩
  obtain ⟨⟨root', key'⟩, rest, hcons⟩ := List.exists_cons_of_ne_nil (List.ne_nil_of_mem hmem)
  refine ⟨root', key', head?_rootSplits.1 ?_⟩
  rw [rootSplits_eq, hcons]
  rfl

end Text

end UtilityCss
