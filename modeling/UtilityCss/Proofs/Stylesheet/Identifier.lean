import UtilityCss.Proofs.Bracket.Placeholder
import UtilityCss.Proofs.Candidate.Texts
import UtilityCss.Stylesheet.Identifier

/-!
# Identifiers are closed

An identifier has no bracket, no quote and no backslash but those of its escapes, and every escape
is closed on its own. One character is written as itself behind a backslash though it is a
placeholder, and so an identifier is fillable only if `&` is not in the text that it denotes.

* `closed_escapeIdentifier`, `fillable_escapeIdentifier`.
-/

namespace UtilityCss

theorem isPlain_of_le {c : Char} (h : 0x80 ≤ c.toNat) : Token.isPlain c = true := by
  have hall : ['(', '[', '\x7b', ')', ']', '\x7d', '"', '\'', '\\'].all (·.toNat < 0x80) = true := by
    decide
  refine eq_true_of_ne_false fun hc => ?_
  exact Nat.not_le.2 (of_decide_eq_true
    (List.all_eq_true.1 hall c (Closed.mem_of_not_isPlain hc))) h

theorem fillable_codeEscape {c : Char} (h : c.toNat < 0x80) : Fillable (codeEscape c) := by
  have hall : ∀ n < 0x80, (hexadecimal 1 n).all (fun d => isNameChar d && d != '&') = true ∧
      hexadecimal 1 n ≠ [] := by decide +kernel
  obtain ⟨hdigits, hne⟩ := hall c.toNat h
  simp only [List.all_eq_true, Bool.and_eq_true, bne_iff_ne] at hdigits
  obtain ⟨d, rest, hd⟩ := List.exists_cons_of_ne_nil hne
  rw [hd] at hdigits
  obtain ⟨⟨hname, hplaceholder⟩, hdigits⟩ := List.forall_mem_cons.1 hdigits
  have hrest : Tame rest := .of_isNameChar fun c hc => (hdigits c hc).1
  have hblank : Fillable [' '] := .plain rfl .nil
  rw [codeEscape, hd]
  exact .escaped (isInert_iff.1 (inert_of_isNameChar hname).1).2.1 hplaceholder
    ((Fillable.of_tame hrest).append hblank)

theorem fillable_escapeInside {c : Char} (hblank : c ≠ ' ') (hc : c ≠ '&') :
    Fillable (escapeInside c) := by
  rw [escapeInside]
  split
  · exact .plain rfl .nil
  · split
    · exact fillable_codeEscape (by omega)
    · split
      · next h =>
        refine .plain ?_ .nil
        rcases h with h | h | rfl | rfl
        · exact isPlain_of_le h
        · exact (isPlain_of_isNameChar (by simp [isNameChar, isAlphanumericOr, isAlphanumeric, h])).1
        · rfl
        · rfl
      · next hcontrol h =>
        have hall : ∀ n < 0x80, 0x1f < (Char.ofNat n).toNat → Char.ofNat n ≠ ' ' →
            isBlank (Char.ofNat n) = false := by decide +kernel
        have hnot := of_toNat_lt (P := fun c => 0x1f < c.toNat → c ≠ ' ' → isBlank c = false) hall
          (by omega) (by omega) hblank
        exact .escaped hnot hc .nil

theorem fillable_escapeStart {c : Char} (hblank : c ≠ ' ') (hc : c ≠ '&') :
    Fillable (escapeStart c) := by
  rw [escapeStart]
  split
  · next hdigit =>
    exact fillable_codeEscape (toNat_lt_of_isDigit hdigit)
  · exact fillable_escapeInside hblank hc

theorem fillable_escapeIdentifier {s : Text} (hblank : ' ' ∉ s) (hs : '&' ∉ s) :
    Fillable s.escapeIdentifier :=
  Text.escapeIdentifier_of .append .nil (.plain rfl .nil) (.escaped rfl (by decide) .nil)
    (fun _ hc => fillable_escapeInside (ne_of_mem_of_not_mem hc hblank) (ne_of_mem_of_not_mem hc hs))
    fun _ hc => fillable_escapeStart (ne_of_mem_of_not_mem hc hblank) (ne_of_mem_of_not_mem hc hs)

/-- The identifier of a text is closed. There is no escape for the placeholder but the backslash,
    so it need not be fillable. -/
theorem closed_escapeIdentifier {s : Text} (hblank : ' ' ∉ s) : Closed s.escapeIdentifier := by
  have hplaceholder : Closed ['\\', '&'] := .escaped rfl .nil
  refine Text.escapeIdentifier_of .append .nil (.plain rfl .nil) (.escaped rfl .nil)
    (fun c hc => ?_) fun c hc => ?_
  · by_cases hne : c = '&'
    · rw [hne]
      exact hplaceholder
    · exact (fillable_escapeInside (ne_of_mem_of_not_mem hc hblank) hne).closed
  · by_cases hne : c = '&'
    · rw [hne]
      exact hplaceholder
    · exact (fillable_escapeStart (ne_of_mem_of_not_mem hc hblank) hne).closed

end UtilityCss
