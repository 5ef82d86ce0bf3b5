import UtilityCss.Proofs.Candidate.WellFormed
import UtilityCss.Proofs.Compilation.Assigning
import UtilityCss.Proofs.Session.Plain

/-!
# What is read can be compiled

Four things break the compiling of a candidate off: a property without a value, a percentage
without digits, a default value without a rule to declare it, and a template that cannot be
filled. Reading gives no candidate with one of the first two (`Candidate.Compilable`). The other
two lie in the design, and a *sound* design has none of them. So a sound design compiles every
class (`Design.exists_compilationOf`): it gives CSS, or there is a reason why not.

* `Template.exists_fill`: whether a template can be filled does not depend on the value;
* `Answered`: work that is not broken off, and how it is put together.
-/

namespace UtilityCss

/-! ## Templates -/

namespace Template

/-- Whether a template can be filled. -/
def isFillable (t : Template) : Bool :=
  (t.fill []).isOk

/-- Whether parts can be filled does not depend on the value. -/
theorem isOk_fillParts (value other : Text) (asked : Asked) (parts : List TemplatePart) :
    (fillParts value asked parts).isOk = (fillParts other asked parts).isOk := by
  fun_induction fillParts value asked parts with
  | case1 => rw [fillParts]
  | case2 asked c rest ih => rw [fillParts, isOk_map, isOk_map, ih]
  | case3 => rw [fillParts]
  | case4 asked field layout rest ih =>
    rw [fillParts]
    cases asked.ask field with
    | error => rfl
    | ok asked =>
      change (Except.map _ _).isOk = (Except.map _ _).isOk
      rw [isOk_map, isOk_map, ih]

theorem exists_fill {t : Template} (h : t.isFillable = true) (value : Text) :
    ∃ text, t.fill value = .ok text := by
  rw [isFillable, fill] at h
  rw [isOk_fillParts [] value] at h
  rw [fill]
  cases hf : fillParts value .nothing t.parts with
  | ok text => exact ⟨text, rfl⟩
  | error fault => rw [hf] at h; cases h

end Template

/-! ## Sound designs -/

/-- Whether the default value of a utility has a rule to declare it. -/
def Utility.declaresDefault : Utility → Bool
  | .static _ _ => true
  | .dynamic _ rules default _ => default.isNone || !rules.isEmpty

/-- Whether every template of a utility can be filled. -/
def Utility.isFillable : Utility → Bool
  | .static _ _ => true
  | .dynamic _ rules _ _ => rules.all (·.template.isFillable)

/-- Whether a utility has a rule for its default value, and no template that cannot be filled. -/
def Utility.isSound (u : Utility) : Bool :=
  u.declaresDefault && u.isFillable

/-- Whether all utilities of a design are sound. -/
def Design.isSound (d : Design) : Bool :=
  d.utilities.entries.all (·.utility.isSound)

/-- What reading promises of a candidate: a property has a value, and a named value is a name. -/
structure Candidate.Compilable (c : Candidate) : Prop where
  value_isSome : c.kind = .arbitrary → c.value.isSome
  isNamedValue : ∀ key fraction, c.value = some (.named key fraction) → key.isNamedValue

/-- A candidate that fits its table can be compiled. -/
theorem Candidate.WellFormed.compilable {table : UtilityTable} {c : Candidate}
    (h : c.WellFormed table) : c.Compilable := by
  refine ⟨fun hkind => ?_, fun key fraction hvalue => ?_⟩
  · cases h with
    | static hstatic => cases hkind.symm.trans hstatic
    | functional hfunctional => cases hkind.symm.trans hfunctional
    | arbitrary _ _ _ hvalue => rw [hvalue, Option.isSome_some]
  · cases h.wellFormed_of_value _ hvalue with
    | named hkey => exact hkey

theorem Candidate.compilable_of_ofText? {settings : Settings} {table : UtilityTable}
    {read : Text → Option Variant} {raw : Text} {c : Candidate}
    (h : ofText? settings table read raw = some c) : c.Compilable :=
  (wellFormed_of_ofText? h).compilable

/-! ## Work that is not broken off -/

/-- Work on a candidate is not broken off: it has a result, or it is refused. -/
def Answered {α : Type} (outcome : Except Stop α) : Prop :=
  ∀ fault, outcome ≠ .error (.faulty fault)

namespace Answered

variable {α β : Type}

theorem of_ok (value : α) : Answered (.ok value) :=
  fun _ h => by cases h

theorem of_refused (reason : Refusal) : Answered (.error (.refused reason) : Except Stop α) :=
  fun _ h => by cases h

theorem bind {outcome : Except Stop α} {next : α → Except Stop β} (h : Answered outcome)
    (hnext : ∀ value, outcome = .ok value → Answered (next value)) :
    Answered (outcome >>= next) := by
  cases outcome with
  | ok value => exact hnext value rfl
  | error stop =>
    rintro fault hstop
    cases hstop
    exact h fault rfl

theorem map {outcome : Except Stop α} (h : Answered outcome) (f : α → β) :
    Answered (outcome.map f) := by
  cases outcome with
  | ok value => exact of_ok _
  | error stop =>
    rintro fault hstop
    cases hstop
    exact h fault rfl

theorem mapError_refused (outcome : Except Refusal α) :
    Answered (outcome.mapError Stop.refused) := by
  cases outcome with
  | ok value => exact of_ok value
  | error reason => exact of_refused reason

end Answered

/-! ## Named values -/

/-- A name has no line break that could be all that is left of its digits. -/
theorem exists_percentageValue? {key : Text} (h : key.isNamedValue = true) :
    ∃ value, percentageValue? key = .ok value := by
  have hbreak : '\n' ∉ key.dropWhile fun c => decide (c = '0') := fun hmem => by
    have := isNameChar_of_isNamedValue h ((List.dropWhile_suffix _).mem hmem)
    revert this
    decide
  -- What is left of the digits is a zero at least.
  have hdigits (stripped : Text) (hs : '\n' ∉ stripped) :
      (Text.dropFinalNewline (if stripped.isEmpty then ['0'] else stripped)).isEmpty = false := by
    split
    · rfl
    · next hne =>
      rw [Text.dropFinalNewline_eq_self hs]
      exact eq_false_of_ne_true hne
  unfold percentageValue?
  extract_lets stripped digits
  rw [hdigits stripped hbreak]
  split
  · exact ⟨_, rfl⟩
  · rw [if_neg Bool.false_ne_true]
    split
    · exact ⟨_, rfl⟩
    · exact ⟨_, rfl⟩

theorem BareForm.exists_value? (theme : Theme) {key : Text} (h : key.isNamedValue = true)
    (form : BareForm) : ∃ value, form.value? theme key = .ok value := by
  cases form with
  | percentage => exact exists_percentageValue? h
  | integer | number | spacing | fraction => exact ⟨_, rfl⟩

namespace UtilityRule

variable {theme : Theme} {key : Text} {rule : UtilityRule}

theorem exists_findKey? (h : key.isNamedValue = true) (hrule : rule.template.isFillable = true) :
    ∃ entry, rule.findKey? theme key = .ok entry := by
  rw [findKey?]
  split
  · exact ⟨_, rfl⟩
  · obtain ⟨value, hv⟩ := findSomeM?_ok (l := rule.bare) fun form _ =>
      BareForm.exists_value? theme h form
    cases value with
    | none => exact ⟨none, by rw [hv]; rfl⟩
    | some value =>
      obtain ⟨text, ht⟩ := Template.exists_fill hrule value
      exact ⟨some ⟨text, []⟩, by simp only [hv, bind, Except.bind, ht]; rfl⟩

theorem exists_findNamed? (h : key.isNamedValue = true) (hrule : rule.template.isFillable = true)
    (fraction : Option Text) : ∃ result, rule.findNamed? theme key fraction = .ok result := by
  rw [findNamed?]
  split
  · exact ⟨_, rfl⟩
  · obtain ⟨entry, he⟩ := exists_findKey? h hrule
    exact ⟨_, by rw [he]; rfl⟩

end UtilityRule

/-! ## Compiling -/

variable {theme : Theme} {settings : Settings} {c : Candidate}

theorem Utility.answered_chooseRule {name : Text} {rules : List UtilityRule}
    {default : Option Text} (hdefault : default.isSome → rules ≠ [])
    (hrules : ∀ rule ∈ rules, rule.template.isFillable = true) (hc : c.Compilable) :
    Answered (chooseRule theme name rules default c.value) := by
  cases hv : c.value with
  | none =>
    cases default with
    | none => exact .of_refused _
    | some value =>
      cases rules with
      | nil => exact absurd rfl (hdefault rfl)
      | cons rule rules => exact .of_ok _
  | some value =>
    cases value with
    | arbitrary value dataType =>
      rw [chooseRule]
      split
      · exact .of_ok _
      · exact .of_refused _
    | named key fraction =>
      have hkey := hc.isNamedValue key fraction hv
      obtain ⟨found, hfound⟩ := findSomeM?_ok (l := rules) (f := fun rule =>
          (rule.findNamed? theme key fraction).map (·.map fun found => (rule, found)))
        fun rule hrule => by
          obtain ⟨result, hr⟩ := UtilityRule.exists_findNamed? hkey (hrules rule hrule) fraction
          exact ⟨_, by rw [hr]; rfl⟩
      rw [chooseRule, hfound]
      cases found with
      | none => exact .of_refused _
      | some found => exact .of_ok _

theorem Utility.answered_assign {u : Utility} (hu : u.isSound = true) (hc : c.Compilable) :
    Answered (u.assign theme settings c) := by
  refine .bind ?_ fun p _ => .mapError_refused _
  cases u with
  | static name declarations =>
    rw [assignments]
    split
    · exact .of_refused _
    · exact .of_ok _
  | dynamic name rules default signed =>
    simp only [isSound, declaresDefault, isFillable, Bool.and_eq_true, Bool.or_eq_true,
      Option.isNone_iff_eq_none, Bool.not_eq_true', List.isEmpty_eq_false_iff,
      List.all_eq_true] at hu
    have hdefault : default.isSome → rules ≠ [] := fun hd =>
      hu.1.resolve_left (Option.isSome_iff_ne_none.1 hd)
    rw [assignments]
    refine .bind (answered_chooseRule hdefault hu.2 hc) fun chosen _ => ?_
    dsimp only
    split
    · exact .of_refused _
    · exact .of_ok _

namespace UtilityEntry

/-- Whether an entry takes a candidate. -/
def isUsable (theme : Theme) (settings : Settings) (c : Candidate) (e : UtilityEntry) : Bool :=
  (e.utility.assign theme settings c).isOk

theorem isUsable_iff {e : UtilityEntry} : e.isUsable theme settings c = true ↔
    ∃ result, e.utility.assign theme settings c = .ok result := by
  rw [isUsable]
  cases e.utility.assign theme settings c with
  | ok result => exact iff_of_true rfl ⟨result, rfl⟩
  | error stop => exact iff_of_false nofun nofun

/-- An entry that does not break off takes what it does not refuse. -/
theorem isNone_refusal? {e : UtilityEntry} (h : Answered (e.utility.assign theme settings c)) :
    (e.refusal? theme settings c).isNone = e.isUsable theme settings c := by
  rw [refusal?, isUsable]
  split
  · next hassign =>
    rw [hassign]
    rfl
  · next hassign =>
    cases hcase : e.utility.assign theme settings c with
    | ok assignments => rfl
    | error stop =>
      cases stop with
      | refused reason => exact absurd hcase (hassign reason)
      | faulty fault => exact absurd hcase (h fault)

end UtilityEntry

theorem UtilityTable.answered_assignFirst {entries : List UtilityEntry}
    (h : ∀ e ∈ entries, e.utility.isSound = true) (hc : c.Compilable) (reason : Option Refusal) :
    Answered (assignFirst theme settings c reason entries) := by
  rw [assignFirst_eq]
  split
  · next e hfind =>
    exact .map (Utility.answered_assign (h e (List.mem_of_find?_eq_some hfind)) hc) _
  · exact .of_refused _

theorem UtilityTable.answered_assign {table : UtilityTable}
    (h : ∀ e ∈ table.entries, e.utility.isSound = true) (hc : c.Compilable) :
    Answered (table.assign theme settings c) := by
  rw [assign]
  split
  · next hkind =>
    obtain ⟨value, hvalue⟩ := Option.isSome_iff_exists.1 (hc.value_isSome hkind)
    rw [hvalue]
    dsimp only
    split
    · exact .of_ok _
    · exact .of_refused _
  · exact answered_assignFirst (fun e he => h e (List.mem_filter.1 he).1) hc none

namespace Design

theorem exists_compile {d : Design} (h : d.isSound = true) (hc : c.Compilable) :
    ∃ compilation, c.compile d = .ok compilation := by
  have hassign : Answered (d.utilities.assign d.theme d.settings c) :=
    UtilityTable.answered_assign (List.all_eq_true.1 h) hc
  rw [Candidate.compile]
  split
  · next fault hfault => exact absurd hfault (hassign fault)
  · exact ⟨_, rfl⟩
  · split
    · exact ⟨_, rfl⟩
    · exact ⟨_, rfl⟩

/-- A sound design compiles every class. -/
theorem exists_compilationOf {d : Design} (h : d.isSound = true) (raw : Text) :
    ∃ compilation, d.compilationOf raw = .ok compilation := by
  rw [compilationOf]
  cases hc : d.candidateOf? raw with
  | none => exact ⟨_, rfl⟩
  | some c => exact exists_compile h (Candidate.compilable_of_ofText? hc)

end Design

end UtilityCss
