import UtilityCss.Proofs.Bracket.Decoding
import UtilityCss.Proofs.Candidate.Soundness

/-!
# The texts of a candidate

What reading lets into the texts that end up in declarations. Names, keys and properties are made
of characters without a meaning of their own, so they are tame. The texts in brackets may hold
anything, but as a class has no blanks, they are closed when they are decoded.

* `Candidate.Clean`: this much of every text of a candidate;
* `Candidate.clean_of_ofText?`: what is read is clean.
-/

namespace UtilityCss

/-! ## Names -/

theorem isPlain_of_isNameChar {c : Char} (h : isNameChar c = true) :
    Token.isPlain c = true ∧ c ≠ ';' := by
  refine ⟨(isInert_iff.1 (inert_of_isNameChar h).1).1, ?_⟩
  rintro rfl
  cases h

theorem Tame.of_plain {s : Text} (h : ∀ c ∈ s, Token.isPlain c = true ∧ c ≠ ';') : Tame s := by
  refine ⟨.of_plain fun c hc => (h c hc).1, fun c hc => ?_⟩
  obtain ⟨hplain, hsemicolon⟩ := h c hc
  simp only [Token.isPlain, Bool.and_eq_true] at hplain
  simp [isMild, hplain, hsemicolon]

theorem Tame.of_isNameChar {s : Text} (h : ∀ c ∈ s, isNameChar c = true) : Tame s :=
  .of_plain fun c hc => isPlain_of_isNameChar (h c hc)

theorem Tame.of_isNamedValue {s : Text} (h : s.isNamedValue = true) : Tame s :=
  .of_isNameChar fun _ hc => isNameChar_of_isNamedValue h hc

theorem isNameChar_of_isCustomProperty {s : Text} (h : s.isCustomProperty = true) {c : Char}
    (hc : c ∈ s) : isNameChar c = true := by
  unfold Text.isCustomProperty at h
  split at h
  · next name =>
    simp only [Bool.and_eq_true, List.all_eq_true] at h
    rcases hc with _ | ⟨_, _ | ⟨_, hc⟩⟩
    · rfl
    · rfl
    · exact isNameChar_of_isAlphanumericOr (by decide) (h.2 c hc)
  · cases h

theorem isNameChar_of_isProperty {s : Text} (h : s.isProperty = true) {c : Char} (hc : c ∈ s) :
    isNameChar c = true := by
  rcases Bool.or_eq_true_iff.1 h with h | h
  · exact isNameChar_of_isCustomProperty h hc
  · rw [Text.isPlainProperty] at h
    split at h
    · cases h
    · next first rest hs =>
      simp only [Bool.and_eq_true, List.all_eq_true] at h
      have hfirst : isNameChar first = true := by
        simp [isNameChar, isAlphanumericOr, isAlphanumeric, Char.isAlphanum, h.1]
      have hrest : ∀ c ∈ rest, isNameChar c = true := fun c hc =>
        isNameChar_of_isAlphanumericOr (by decide) (h.2 c hc)
      have hall : ∀ c ∈ first :: rest, isNameChar c = true :=
        List.forall_mem_cons.2 ⟨hfirst, hrest⟩
      rw [← hs] at hall
      split at hall
      · next hhead =>
        obtain ⟨rest', rfl⟩ := List.head?_eq_some_iff.1 hhead
        rcases List.mem_cons.1 hc with rfl | hc
        · rfl
        · exact hall c hc
      · exact hall c hc

/-! ## Brackets -/

theorem closed_of_decodeStripped? {s value : Text} (hs : ∀ c ∈ s, isBlank c = false)
    (h : decodeStripped? s = some value) : Closed value := by
  obtain ⟨h, _⟩ := Option.filter_eq_some_iff.1 h
  obtain ⟨decoded, hdecoded, rfl⟩ := Option.map_eq_some_iff.1 h
  rw [Text.decode?] at hdecoded
  cases hd : s.decode with
  | error e =>
    rw [hd] at hdecoded
    cases hdecoded
  | ok decoded' =>
    rw [hd] at hdecoded
    cases hdecoded
    exact (Text.closed_of_decode hs hd).strip

theorem closed_variableReference {name : Text} (h : name.isCustomProperty = true) :
    Closed (variableReference name) := by
  have hcall : variableReference name = "var".toList ++ Bracket.round.enclose name := by
    simp [variableReference, Text.join_cons_cons, Bracket.enclose, Bracket.opener, Bracket.closer]
  have hname : Tame name := .of_isNameChar fun _ hc => isNameChar_of_isCustomProperty h hc
  rw [hcall]
  exact (Tame.of_isTame (by decide)).closed.append (hname.closed.enclose _)

theorem Hinted.subset {content body : Text} {hint : Option Text} (h : Hinted content hint body) :
    body ⊆ content := by
  cases h with
  | known => exact fun c hc => List.mem_append_right _ (.tail _ hc)
  | plain => exact fun c hc => hc

theorem subset_enclose (b : Bracket) (content : Text) : content ⊆ b.enclose content :=
  fun _ hc => List.mem_append_left _ (.tail _ hc)

variable {s : Text}

theorem ValueSpelling.closed {modifier : Option Modifier} {value : Text} {type : Option Text}
    (h : ValueSpelling modifier (.arbitrary value type) s) (hs : ∀ c ∈ s, isBlank c = false) :
    Closed value := by
  cases h with
  | bracketed hhint hvalue =>
    exact closed_of_decodeStripped?
      (fun c hc => hs c (subset_enclose .square _ (hhint.subset hc))) hvalue
  | custom _ hname => exact closed_variableReference hname

theorem ModifierSpelling.closed {value : Text} (h : ModifierSpelling (.arbitrary value) s)
    (hs : ∀ c ∈ s, isBlank c = false) : Closed value := by
  cases h with
  | bracketed hvalue =>
    exact closed_of_decodeStripped? (fun c hc => hs c (subset_enclose .square _ hc)) hvalue
  | custom _ hname => exact closed_variableReference hname

/-! ## Candidates -/

/-- The texts of a candidate without brackets are tame, and those in brackets are closed. -/
structure Candidate.Clean (c : Candidate) : Prop where
  property : ∀ property, c.property = some property → Tame property
  key : ∀ key fraction, c.value = some (.named key fraction) → Tame key
  fraction : ∀ key fraction, c.value = some (.named key (some fraction)) → Tame fraction
  value : ∀ value type, c.value = some (.arbitrary value type) → Closed value
  name : ∀ name, c.modifier = some (.named name) → Tame name
  modifier : ∀ value, c.modifier = some (.arbitrary value) → Closed value

theorem subset_join {separator s : Text} {parts : List Text} (h : s ∈ parts) :
    s ⊆ Text.join separator parts := by
  induction parts with
  | nil => cases h
  | cons part parts ih =>
    cases parts with
    | nil =>
      rw [Text.join_singleton, List.mem_singleton.1 h]
      exact fun c hc => hc
    | cons part' parts =>
      rw [Text.join_cons_cons]
      rcases List.mem_cons.1 h with rfl | h
      · exact fun c hc => List.mem_append_left _ (List.mem_append_left _ hc)
      · exact fun c hc => List.mem_append_right _ (ih h hc)

theorem subset_markedClass (segments : List Text) (base : Text) (place : Option MarkPlace) :
    base ⊆ markedClass segments base place := by
  have hlast {s : Text} : s ⊆ Text.join [':'] (segments ++ [s]) := subset_join (by simp)
  intro c hc
  cases place with
  | none => exact hlast hc
  | some place =>
    cases place with
    | front => exact .tail _ (hlast hc)
    | inside => exact hlast (.tail _ hc)
    | back => exact hlast (List.mem_append_left _ hc)

theorem segment_subset_markedClass {segments : List Text} {segment : Text}
    (h : segment ∈ segments) (base : Text) (place : Option MarkPlace) :
    segment ⊆ markedClass segments base place := by
  have hin (s : Text) : segment ⊆ Text.join [':'] (segments ++ [s]) :=
    subset_join (List.mem_append_left _ h)
  intro c hc
  cases place with
  | none => exact hin base hc
  | some place =>
    cases place with
    | front => exact .tail _ (hin base hc)
    | inside => exact hin ('!' :: base) hc
    | back => exact hin (base ++ ['!']) hc

theorem Text.LongestRoot.subset {isRoot : Text → Bool} {front root value : Text}
    (h : LongestRoot isRoot front root value) : value ⊆ front := by
  cases h with
  | hyphen hs =>
    rw [hs]
    exact fun c hc => List.mem_append_right _ (.tail _ hc)
  | «at» _ hs =>
    rw [hs]
    exact fun c hc => .tail _ hc

theorem EndingSpelling.spells {modifier : Modifier} {ending : Text}
    (h : EndingSpelling (some modifier) ending) :
    ∃ text, ending = '/' :: text ∧ ModifierSpelling modifier text := by
  cases h with
  | slashed hm => exact ⟨_, rfl, hm⟩

/-- A key and a name form a fraction with a slash between. -/
theorem fractionOf_eq_some {key fraction : Text} {modifier : Option Modifier}
    (h : fractionOf key modifier = some fraction) :
    ∃ name, modifier = some (.named name) ∧ fraction = key ++ '/' :: name := by
  unfold fractionOf at h
  split at h
  · next name =>
    obtain ⟨_, h⟩ := Option.ite_none_right_eq_some.1 h
    cases h
    exact ⟨name, rfl, rfl⟩
  · cases h

namespace Candidate

variable {table : UtilityTable} {c : Candidate}

/-- What the two parts of a base without blanks spell is clean. -/
theorem clean_of_spelling {front ending : Text} (hfront : FrontSpelling table c front)
    (hending : EndingSpelling c.modifier ending) (hf : ∀ x ∈ front, isBlank x = false)
    (he : ∀ x ∈ ending, isBlank x = false) : c.Clean := by
  have hname (name : Text) (h : c.modifier = some (.named name)) : Tame name := by
    rw [h] at hending
    obtain ⟨_, _, hm⟩ := hending.spells
    cases hm with
    | named hn => exact .of_isNamedValue hn
  have hmodifier (value : Text) (h : c.modifier = some (.arbitrary value)) : Closed value := by
    rw [h] at hending
    obtain ⟨text, rfl, hm⟩ := hending.spells
    exact hm.closed (List.forall_mem_cons.1 he).2
  cases hfront with
  | static _ hvalue hproperty =>
    exact ⟨by simp [hproperty], by simp [hvalue], by simp [hvalue], by simp [hvalue], hname,
      hmodifier⟩
  | arbitrary _ _ hvalue hproperty _ hp hdecoded =>
    refine ⟨fun property h => ?_, by simp [hvalue], by simp [hvalue], fun value type h => ?_,
      hname, hmodifier⟩
    · rw [hproperty] at h
      cases h
      exact .of_isNameChar fun _ hx => isNameChar_of_isProperty hp hx
    · rw [hvalue] at h
      cases h
      refine closed_of_decodeStripped? (fun x hx => hf x (subset_enclose .square _ ?_)) hdecoded
      exact List.mem_append_right _ (.tail _ hx)
  | functional _ hvalue hproperty _ hroot hspelling =>
    refine ⟨by simp [hproperty], fun key fraction h => ?_, fun key fraction h => ?_,
      fun value type h => ?_, hname, hmodifier⟩
    · rw [hvalue] at h
      cases h
      cases hspelling with
      | named hkey => exact .of_isNamedValue hkey
    · rw [hvalue] at h
      cases h
      generalize hfraction : some fraction = f at hspelling
      cases hspelling with
      | named hkey =>
        -- The part of a fraction after its slash is the modifier.
        obtain ⟨name, hm, rfl⟩ := fractionOf_eq_some hfraction.symm
        have hslash : Tame ['/'] := .of_isTame (by decide)
        exact (Tame.of_isNamedValue hkey).append (hslash.append (hname name hm))
    · rw [hvalue] at h
      cases h
      exact hspelling.closed fun x hx => hf x (hroot.subset hx)

/-- What is read is clean. -/
theorem clean_of_ofText? {settings : Settings} {read : Text → Option Variant} {raw : Text}
    (h : ofText? settings table read raw = some c) : c.Clean := by
  obtain ⟨hraw, hblank, _, segments, base, place, hspelled⟩ := ofText?_spelledBy h
  obtain ⟨front, ending, hbase, hfront, hending⟩ := hspelled.base.parts
  have hunblank : ∀ x ∈ base, isBlank x = false := fun x hx => by
    have hx : x ∈ c.raw := hspelled.raw ▸ subset_markedClass segments base place hx
    rw [hraw] at hx
    exact eq_false_of_ne_true (List.any_eq_false.1 hblank x hx)
  rw [hbase] at hunblank
  exact clean_of_spelling hfront hending
    (fun x hx => hunblank x (List.mem_append_left _ (List.mem_append_right _ hx)))
    fun x hx => hunblank x (List.mem_append_right _ hx)

end Candidate

end UtilityCss
