import UtilityCss.Proofs.Candidate.Completeness
import UtilityCss.Proofs.Session.Plain

/-!
# Classes without variants

A class that is a sign, a front and a modifier, and nothing else, is read as a name that stands
bare if the whole front is one (`Design.candidateOf?_bare`), and else as the longest name in front
of a key (`Design.candidateOf?_named`).

The keys are *joined* here (`Text.isJoined`): letters and digits, with single hyphens or dots
between. So what a longer name leaves of a key is a key again (`Text.isJoined_of_append`).
-/

namespace UtilityCss

namespace Text

/-- Letters and digits, joined by single hyphens or dots. -/
def isJoined : Text → Bool
  | [] => false
  | [c] => isAlphanumeric c
  | c :: sign :: rest =>
    isAlphanumeric c && if sign = '-' ∨ sign = '.' then isJoined rest else isJoined (sign :: rest)

theorem isAlphanumeric_of_isJoined {c : Char} {s : Text} (h : isJoined (c :: s) = true) :
    isAlphanumeric c = true := by
  cases s with
  | nil => exact h
  | cons c' s => exact (Bool.and_eq_true_iff.1 h).1

/-- Between two letters or digits there is nothing that a named value may not have. -/
theorem isNamedValue_of_isJoined {s : Text} (h : s.isJoined = true) : s.isNamedValue = true := by
  have hlast {c : Char} (hc : isAlphanumeric c = true) : isAlphanumericOr ['%'] c = true :=
    Bool.or_eq_true_iff.2 (.inl hc)
  have hinner {c : Char} (hc : isAlphanumeric c = true) :
      isAlphanumericOr ['_', '.', '%', '-'] c = true :=
    Bool.or_eq_true_iff.2 (.inl hc)
  induction s using isJoined.induct with
  | case1 => cases h
  | case2 c =>
    rw [isJoined] at h
    simp [isNamedValue, h]
  | case3 c sign rest ihrest ih =>
    rw [isJoined, Bool.and_eq_true] at h
    obtain ⟨hc, h⟩ := h
    split at h
    · next hsign =>
      -- The text behind the sign is a named value, so it is not empty, and ends as it has to.
      replace ih := ihrest h
      have hsign : isAlphanumericOr ['_', '.', '%', '-'] sign = true := by
        rcases hsign with rfl | rfl <;> rfl
      cases rest with
      | nil => cases ih
      | cons c' rest =>
        simp only [isNamedValue, Bool.and_eq_true] at ih
        simp only [isNamedValue, hc, List.all_cons, hsign, hinner ih.1.1, ih.1.2, Bool.and_self,
          Bool.true_and, List.getLast?_cons_cons]
        cases rest with
        | nil => exact hlast ih.1.1
        | cons c'' rest => exact ih.2
    · replace ih := ih h
      simp only [isNamedValue, Bool.and_eq_true] at ih
      simp only [isNamedValue, hc, List.all_cons, hinner ih.1.1, ih.1.2, Bool.and_self,
        Bool.true_and]
      cases rest with
      | nil => exact hlast ih.1.1
      | cons c' rest => exact ih.2

/-- No hyphen stands behind a hyphen. -/
theorem hasInside_of_isJoined {s : Text} (h : s.isJoined = true) : hasInside "--" s = false := by
  have hstart {c : Char} (hc : isAlphanumeric c = true) (s : Text) :
      List.isPrefixOf "--".toList (c :: s) = false := by
    refine Bool.and_eq_false_imp.2 fun hhyphen => ?_
    rw [← beq_iff_eq.1 hhyphen] at hc
    cases hc
  induction s using isJoined.induct with
  | case1 => cases h
  | case2 c =>
    rw [isJoined] at h
    rw [hasInside, hstart h]
    rfl
  | case3 c sign rest ihrest ih =>
    rw [isJoined, Bool.and_eq_true] at h
    obtain ⟨hc, h⟩ := h
    rw [hasInside, hstart hc, Bool.false_or]
    split at h
    · -- Behind the sign there is a letter or digit.
      have hsign : List.isPrefixOf "--".toList (sign :: rest) = false := by
        cases rest with
        | nil => cases h
        | cons c' rest =>
          have hc' := isAlphanumeric_of_isJoined h
          refine Bool.and_eq_false_imp.2 fun _ => Bool.and_eq_false_imp.2 fun hhyphen => ?_
          rw [← beq_iff_eq.1 hhyphen] at hc'
          cases hc'
      rw [hasInside, hsign, Bool.false_or]
      exact ihrest h
    · exact ih h

/-- What stands behind a hyphen is joined, too. -/
theorem isJoined_of_append {s key : Text} (h : isJoined (s ++ '-' :: key) = true) :
    key.isJoined = true := by
  have hhyphen (key : Text) : isJoined ('-' :: key) = false := by
    cases key <;> rfl
  induction s using isJoined.induct with
  | case1 =>
    rw [List.nil_append, hhyphen] at h
    cases h
  | case2 c =>
    rw [List.singleton_append, isJoined, if_pos (.inl rfl), Bool.and_eq_true] at h
    exact h.2
  | case3 c sign rest ihrest ih =>
    rw [List.cons_append, List.cons_append, isJoined, Bool.and_eq_true] at h
    obtain ⟨_, h⟩ := h
    split at h
    · exact ihrest h
    · exact ih h

end Text

variable {d : Design} {negative : Bool} {front root key : Text} {modifier : Option Text}

namespace Design

/-- A class without brackets is read by what stands between its sign and its modifier. -/
theorem candidateOf?_front (hfront : ∀ c ∈ front, isNameChar c = true) (hne : front ≠ [])
    (hhead : front.head? ≠ some '-') (hmodifier : ∀ m ∈ modifier, m.isNamedValue = true) :
    let raw := signText negative ++ (front ++ renderModifier modifier)
    d.candidateOf? raw
      = Outline.utility? ⟨raw, [], raw, false⟩ d.utilities [] negative front
          (modifier.map .named) := by
  intro raw
  have houtline : Outline.ofText? d.settings raw = some ⟨raw, [], raw, false⟩ := by
    have h := @Outline.ofText?_written d.settings [] raw (by simp) (by simp)
      (inert_base hfront hmodifier) (base_ne_nil hne)
    rwa [List.nil_append, Text.join_singleton] at h
  have hcomplete : Outline.complete? ⟨raw, [], raw, false⟩ d.utilities [] = _ :=
    Outline.complete?_front hfront hne hhead hmodifier
  rw [candidateOf?, Candidate.ofText?, Candidate.ofTextWith, houtline]
  exact hcomplete

/-- A name that stands bare is read as itself. -/
theorem candidateOf?_bare (hname : IsRootName root) (hbare : d.utilities.standsBare root = true)
    (hmodifier : ∀ m ∈ modifier, m.isNamedValue = true) :
    d.candidateOf? (root ++ renderModifier modifier)
      = some { raw := root ++ renderModifier modifier, kind := .static, root, value := none,
               modifier := modifier.map .named, variants := [], important := false,
               negative := false, property := none } := by
  have h := @candidateOf?_front d false _ modifier (fun _ => hname.isNameChar) hname.ne_nil
    hname.head?_ne hmodifier
  exact h.trans (Outline.utility?_eq_some.2 (.inl ⟨hbare, rfl⟩))

/-- A name with a key is read as these two, if no longer name is known. -/
theorem candidateOf?_named (hroot : IsRootName root)
    (hkey : key.isNamedValue = true) (hmodifier : ∀ m ∈ modifier, m.isNamedValue = true)
    (hbare : d.utilities.standsBare (root ++ '-' :: key) = false)
    (hlongest : Text.LongestRoot d.utilities.takesValue (root ++ '-' :: key) root key) :
    let raw := signText negative ++ (root ++ '-' :: key ++ renderModifier modifier)
    d.candidateOf? raw
      = some { raw, kind := .functional, root,
               value := some (.named key (fractionOf key (modifier.map .named))),
               modifier := modifier.map .named, variants := [], important := false, negative,
               property := none } := by
  intro raw
  have h := @candidateOf?_front d negative _ modifier (isNameChar_front hroot hkey)
    (by simp) (hroot.head?_append_ne _) hmodifier
  refine h.trans (Outline.utility?_eq_some.2
    (.inr ⟨hbare, root, key, .named key none, hlongest, .named hkey, ?_⟩))
  rw [Value.withFraction_named]

end Design

end UtilityCss
