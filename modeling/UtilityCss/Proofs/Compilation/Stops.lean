import UtilityCss.Proofs.Compilation.Entries
import UtilityCss.Proofs.Utility.Table

/-!
# What stops a candidate that fits

Compiling a candidate takes a name that is unknown for a refusal, and a value that is missing for a
fault. Neither happens to a candidate that fits its table. What stops it is found inside an entry
with its name (`Stop.InsideEntry`): a reason of that entry, or a template that cannot be filled. And
if nothing stops it, its declarations come from an entry with its name, which has a place in the
table (`Source.PlacedIn`).

* `Utility.insideEntry_of_assign`: why an entry stops, told step by step;
* `UtilityTable.insideEntry_of_assign`, `UtilityTable.placedIn_of_assign`: what becomes of a
  candidate that fits;
* `Candidate.ofText?_ready`: what is read fits, and so it is ready to be compiled.
-/

namespace UtilityCss

/-- What may stop the work on a candidate whose name is known: a refusal for another reason, or a
    template that cannot be filled. -/
inductive Stop.InsideEntry : Stop → Prop
  | refused {reason : Refusal} : reason.message.startsWith "unknown utility" = false →
      InsideEntry (.refused reason)
  | template (fault : TemplateFault) : InsideEntry (.faulty (.template fault))

/-- Declarations of a candidate come from an entry of a table with its name, or from its property.
    The place of an entry is that of the same entry in the table, and a property comes after all
    entries. -/
inductive Source.PlacedIn (table : UtilityTable) (c : Candidate) : Source → Prop
  | entry {e e' : UtilityEntry} : c.kind ≠ .arbitrary → e ∈ table.get c.root →
      table.entries[(Source.entry e).order table]? = some e' → e'.mark = e.mark →
      PlacedIn table c (.entry e)
  | arbitraryProperty : c.kind = .arbitrary →
      Source.arbitraryProperty.order table = table.size → PlacedIn table c .arbitraryProperty

/-! ## What stops an entry -/

variable {theme : Theme} {settings : Settings} {c : Candidate} {stop : Stop}

theorem insideEntry_of_applyModifier {modifier : Option Modifier} {plain : List Assignment}
    {reason : Refusal} (h : applyModifier theme settings modifier plain = .error reason) :
    (Stop.refused reason).InsideEntry := by
  unfold applyModifier at h
  split at h
  · cases h
  · split at h
    · split at h
      · cases h
        exact .refused rfl
      · cases h
    · cases h
      exact .refused rfl

namespace UtilityRule

variable {rule : UtilityRule} {rules : List UtilityRule} {key name value : Text}

theorem insideEntry_of_forArbitrary {dataType : Option Text} {reason : Refusal}
    (h : forArbitrary name rules value dataType = .error reason) :
    (Stop.refused reason).InsideEntry := by
  rw [forArbitrary] at h
  split at h
  · split at h
    · cases h
    · cases h
      exact .refused rfl
  · split at h
    · cases h
    · split at h
      · cases h
      · cases h
        exact .refused rfl

/-- Only the template of a rule can fail on a name: its bare forms know what to do with one. -/
theorem insideEntry_of_findKey? {fault : Fault} (hkey : key.isNamedValue = true)
    (h : rule.findKey? theme key = .error fault) : (Stop.faulty fault).InsideEntry := by
  rw [findKey?] at h
  split at h
  · cases h
  · rcases bind_eq_error.1 h with h | ⟨found, _, h⟩
    · obtain ⟨_, form, _, _, _, hform⟩ := findSomeM?_eq_error.1 h
      obtain ⟨value, hvalue⟩ := BareForm.exists_value? theme hkey form
      rw [hvalue] at hform
      cases hform
    · cases found with
      | none => cases h
      | some value =>
        dsimp only at h
        split at h
        · cases h
        · cases h
          exact .template _

theorem insideEntry_of_findNamed? {fraction : Option Text} {fault : Fault}
    (hkey : key.isNamedValue = true) (h : rule.findNamed? theme key fraction = .error fault) :
    (Stop.faulty fault).InsideEntry := by
  cases hfraction : fraction.bind (rule.findFraction? theme) with
  | none =>
    rw [findNamed?_of_key hfraction, map_eq_error] at h
    exact insideEntry_of_findKey? hkey h
  | some entry =>
    rw [findNamed?_of_fraction hfraction] at h
    cases h

end UtilityRule

namespace Utility

/-- No rule is missing where a default needs one. -/
theorem insideEntry_of_chooseRule {name : Text} {rules : List UtilityRule} {default : Option Text}
    {value : Option Value} (hdefault : default.isSome → rules ≠ [])
    (hvalue : ∀ v, value = some v → v.WellFormed)
    (h : chooseRule theme name rules default value = .error stop) : stop.InsideEntry := by
  rw [chooseRule.eq_def] at h
  split at h
  · -- The bare name: a default is declared by the first rule.
    split at h
    · cases h
      exact .refused rfl
    · exact absurd rfl (hdefault rfl)
    · cases h
  · split at h
    · cases h
    · next hreason =>
      cases h
      exact UtilityRule.insideEntry_of_forArbitrary hreason
  · split at h
    · cases h
    · cases h
      exact .refused rfl
    · next hfault =>
      cases h
      obtain ⟨_, rule, _, _, _, hrule⟩ := findSomeM?_eq_error.1 hfault
      cases hvalue _ rfl with
      | named hkey => exact UtilityRule.insideEntry_of_findNamed? hkey (map_eq_error.1 hrule)

theorem insideEntry_of_assignments {u : Utility} (hu : u.declaresDefault = true)
    (hc : ∀ v, c.value = some v → v.WellFormed) (h : u.assignments theme c = .error stop) :
    stop.InsideEntry := by
  cases u with
  | static name declarations =>
    rw [assignments] at h
    split at h
    · cases h
      exact .refused rfl
    · cases h
  | dynamic name rules default signed =>
    have hdefault : default.isSome → rules ≠ [] := by
      rintro hsome rfl
      rw [declaresDefault, Option.isNone_eq_false_iff.2 hsome] at hu
      cases hu
    rw [assignments] at h
    rcases bind_eq_error.1 h with h | ⟨chosen, _, h⟩
    · exact insideEntry_of_chooseRule hdefault hc h
    · dsimp only at h
      split at h
      · cases h
        exact .refused rfl
      · cases h

theorem insideEntry_of_assign {u : Utility} (hu : u.declaresDefault = true)
    (hc : ∀ v, c.value = some v → v.WellFormed) (h : u.assign theme settings c = .error stop) :
    stop.InsideEntry := by
  rcases bind_eq_error.1 h with h | ⟨⟨plain, usesModifier⟩, _, h⟩
  · exact insideEntry_of_assignments hu hc h
  · obtain ⟨reason, hreason, rfl⟩ := mapError_eq_error.1 h
    exact insideEntry_of_applyModifier hreason

end Utility

/-! ## Tables -/

namespace UtilityTable

variable {table : UtilityTable}

/-- A name that stands bare, or takes values, has an entry. -/
theorem get_ne_nil_of_any {name : Text} {p : UtilityEntry → Bool}
    (h : (table.get name).any p = true) : table.get name ≠ [] := by
  intro hnil
  rw [hnil] at h
  cases h

/-- If all entries refuse a candidate, the reason is that of the first, so it is one of an entry. -/
theorem insideEntry_of_assignFirst {entries : List UtilityEntry} (hne : entries ≠ [])
    (hentries : ∀ e ∈ entries, ∀ stop, e.utility.assign theme settings c = .error stop →
      stop.InsideEntry) (h : assignFirst theme settings c none entries = .error stop) :
    stop.InsideEntry := by
  rw [assignFirst_eq] at h
  split at h
  · next e hfind =>
    exact hentries e (List.mem_of_find?_eq_some hfind) stop (map_eq_error.1 h)
  · next hnone =>
    obtain ⟨e, rest, rfl⟩ := List.exists_cons_of_ne_nil hne
    have hrefuses := List.find?_eq_none.1 hnone e (.head _)
    rw [Option.isNone_iff_eq_none] at hrefuses
    obtain ⟨reason, hreason⟩ := Option.ne_none_iff_exists'.1 hrefuses
    rw [List.head?_cons, Option.bind_some, hreason] at h
    cases h
    exact hentries e (.head _) _ (UtilityEntry.refusal?_eq_some.1 hreason)

/-- Only its entries stop a candidate that fits. -/
theorem insideEntry_of_assign
    (htable : ∀ e ∈ table.entries, e.utility.declaresDefault = true) (hc : c.WellFormed table)
    (h : table.assign theme settings c = .error stop) : stop.InsideEntry := by
  have hentries : ∀ e ∈ table.get c.root, ∀ stop,
      e.utility.assign theme settings c = .error stop → stop.InsideEntry := fun e he _ =>
    Utility.insideEntry_of_assign (htable e (List.mem_filter.1 he).1) hc.wellFormed_of_value
  cases hc with
  | static hkind _ _ hbare =>
    rw [assign_eq_assignFirst (by simp [hkind])] at h
    exact insideEntry_of_assignFirst (get_ne_nil_of_any hbare) hentries h
  | functional hkind _ _ _ htakes =>
    rw [assign_eq_assignFirst (by simp [hkind])] at h
    exact insideEntry_of_assignFirst (get_ne_nil_of_any htakes) hentries h
  | arbitrary hkind _ _ hvalue =>
    rw [assign, hkind, hvalue] at h
    dsimp only at h
    split at h
    · cases h
    · next hreason =>
      cases h
      exact insideEntry_of_applyModifier hreason

/-- What gives the assignments of a candidate has a place in the table. -/
theorem placedIn_of_assign {source : Source} {assignments : List Assignment}
    (h : table.assign theme settings c = .ok (source, assignments)) :
    source.PlacedIn table c := by
  by_cases hkind : c.kind = .arbitrary
  · obtain ⟨_, _, _, _, h⟩ := (assign_arbitrary_eq_ok hkind).1 h
    cases h
    exact .arbitraryProperty hkind rfl
  · rw [assign_eq_assignFirst hkind, assignFirst_eq] at h
    split at h
    · next e hfind =>
      obtain ⟨_, _, h⟩ := map_eq_ok.1 h
      cases h
      have he := List.mem_of_find?_eq_some hfind
      obtain ⟨e', hplace, hmark⟩ := exists_getElem?_order (List.mem_filter.1 he).1
      exact .entry hkind he hplace hmark
    · cases h

end UtilityTable

/-! ## Classes -/

/-- *What is read is ready to be compiled.* A class that is read has the shape that its kind asks
    for, with a name that the table knows to stand bare or to take values. If every default value
    has a rule to declare it, compiling never reports the utility as unknown, and never asks for a
    value or a rule that is missing: what breaks it off is a template that cannot be filled. What
    gives the CSS has a place in the table. -/
theorem Candidate.ofText?_ready {d : Design} {settings : Settings} {read : Text → Option Variant}
    {raw : Text} {c : Candidate}
    (hd : ∀ e ∈ d.utilities.entries, e.utility.declaresDefault = true)
    (h : ofText? settings d.utilities read raw = some c) :
    c.WellFormed d.utilities ∧
      (∀ reason, c.compile d = .ok (.refused reason) →
        reason.message.startsWith "unknown utility" = false) ∧
      (∀ fault, c.compile d = .error fault → ∃ unfilled, fault = .template unfilled) ∧
      ∀ node source, c.compile d = .ok (.produced node source) →
        source.PlacedIn d.utilities c := by
  have hwell := wellFormed_of_ofText? h
  refine ⟨hwell, ?_⟩
  cases hassign : d.utilities.assign d.theme d.settings c with
  | error stop =>
    rw [compile_of_error hassign]
    cases UtilityTable.insideEntry_of_assign hd hwell hassign with
    | refused hreason => exact ⟨fun _ h => by cases h; exact hreason, nofun, nofun⟩
    | template fault => exact ⟨nofun, fun _ h => by cases h; exact ⟨fault, rfl⟩, nofun⟩
  | ok resolved =>
    obtain ⟨source, assignments⟩ := resolved
    have hplaced := UtilityTable.placedIn_of_assign hassign
    rw [compile_of_ok hassign]
    -- The variants may still refuse, which is no word about the utility.
    cases wrapAll? d.variants (ruleOf c assignments) c.variants with
    | none => exact ⟨fun _ h => by cases h; rfl, nofun, nofun⟩
    | some node => exact ⟨nofun, nofun, fun _ _ h => by cases h; exact hplaced⟩

/-- A value with its data type, behind a name that two utilities bear: the second takes it. -/
theorem Candidate.ofText?_ready_of_hint :
    let width : UtilityRule :=
      { UtilityRule.ofProperties ["border-width"] with dataTypes := ["length"] }
    let second : UtilityEntry := ⟨1, .dynamic "border" [width] (some "1px") false⟩
    let d := Design.ofUtilities [.static "border" [("border-style", "solid")], second.utility]
    let read := Variant.ofText? d.variants d.settings
    let c : Candidate :=
      { raw := "border-[length:2px]", kind := .functional, root := "border",
        value := some (.arbitrary "2px" (some "length".toList)), modifier := none, variants := [],
        important := false, negative := false, property := none }
    (∀ e ∈ d.utilities.entries, e.utility.declaresDefault = true) ∧
      ofText? d.settings d.utilities read "border-[length:2px]" = some c ∧
      c.WellFormed d.utilities ∧
      c.compile d = .ok (.produced
        (.rule ".border-\\[length\\:2px\\]" [.declaration ⟨"border-width", "2px", false⟩])
        (.entry second)) ∧
      (Source.entry second).PlacedIn d.utilities c ∧
      (Source.entry second).order d.utilities = 1 := by
  intro width second d read c
  have hd : ∀ e ∈ d.utilities.entries, e.utility.declaresDefault = true := by decide
  have hread : ofText? d.settings d.utilities read "border-[length:2px]" = some c := by
    subst width second d read c
    decide +kernel
  have hcompile : c.compile d = .ok (.produced
      (.rule ".border-\\[length\\:2px\\]" [.declaration ⟨"border-width", "2px", false⟩])
      (.entry second)) := rfl
  obtain ⟨hwell, _, _, hplaced⟩ := ofText?_ready hd hread
  exact ⟨hd, hread, hwell, hcompile, hplaced _ _ hcompile, rfl⟩

end UtilityCss
