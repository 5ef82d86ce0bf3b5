import Mathlib.Data.List.Find
import UtilityCss.Proofs.Compilation.ClosedForm
import UtilityCss.Proofs.Compilation.Faultless

/-!
# The entry that a candidate takes

Several utilities of a table may bear one name. They are tried in the order in which they were
registered, and each may take a candidate, refuse it for a reason, or break the work off. The first
that does not refuse decides (`Design.decider?`): what stands behind it, and what refused in front
of it, could as well be missing. In a sound design no entry breaks off what was read, so there it
is the first that takes the candidate.

* `Design.decider?_alone`, `Design.decider?_append`: what the decision does not depend on;
* `Design.compile_decider`: what the first entry that does not refuse decides.
-/

namespace UtilityCss

variable {theme : Theme} {settings : Settings} {c : Candidate}

namespace Design

/-- The design with other entries in its table of utilities. -/
def withEntries (d : Design) (entries : List UtilityEntry) : Design :=
  { d with utilities := ⟨entries, true⟩, utilities_frozen := rfl }

/-- The first of the entries with the name of a candidate that does not refuse it. -/
def decider? (d : Design) (c : Candidate) : Option UtilityEntry :=
  (d.utilities.get c.root).find? fun e => (e.refusal? d.theme d.settings c).isNone

variable {d : Design} {e : UtilityEntry}

theorem assign_eq (hkind : c.kind ≠ .arbitrary) : d.utilities.assign d.theme d.settings c =
    match d.decider? c with
    | some e => (e.utility.assign d.theme d.settings c).map (.entry e, ·)
    | none => .error (.refused
        (((d.utilities.get c.root).head?.bind (·.refusal? d.theme d.settings c)).getD
          (.unknownUtility c.root))) := by
  rw [UtilityTable.assign_eq_assignFirst hkind, UtilityTable.assignFirst_eq]
  rfl

/-- A table in which the same entry decides compiles a candidate to the same. -/
theorem compile_withEntries (hkind : c.kind ≠ .arbitrary) {entries : List UtilityEntry}
    (h : (d.withEntries entries).decider? c = d.decider? c) (hsome : (d.decider? c).isSome) :
    c.compile (d.withEntries entries) = c.compile d := by
  obtain ⟨e, he⟩ := Option.isSome_iff_exists.1 hsome
  have hassign : (d.withEntries entries).utilities.assign d.theme d.settings c
      = d.utilities.assign d.theme d.settings c := by
    have hentries := @assign_eq c (d.withEntries entries) hkind
    rw [h, he] at hentries
    rw [assign_eq hkind, he]
    exact hentries
  rw [Candidate.compile, Candidate.compile, ← hassign]
  rfl

theorem decider?_withEntries (d : Design) (entries : List UtilityEntry) (c : Candidate) :
    (d.withEntries entries).decider? c = (entries.filter (·.name = c.root)).find?
      fun e => (e.refusal? d.theme d.settings c).isNone :=
  rfl

/-- Among the entries that refuse in front of it and those behind it, the entry that decides could
    stand alone. -/
theorem decider?_alone (h : d.decider? c = some e) : (d.withEntries [e]).decider? c = some e := by
  have hname : e.name = c.root :=
    of_decide_eq_true (List.mem_filter.1 (List.mem_of_find?_eq_some h)).2
  have hfilter : [e].filter (·.name = c.root) = [e] := by
    simp [hname]
  have hrefusal := List.find?_some h
  rw [decider?_withEntries, hfilter]
  exact List.find?_cons_of_pos hrefusal

/-- More entries at the end do not change which entry decides. -/
theorem decider?_append (h : (d.decider? c).isSome) (more : List UtilityEntry) :
    (d.withEntries (d.utilities.entries ++ more)).decider? c = d.decider? c := by
  rw [decider?_withEntries, List.filter_append, List.find?_append]
  exact Option.or_of_isSome h

/-- What was read is taken by the first entry that takes it, in a sound design. -/
theorem decider?_eq_find?_isUsable (hd : d.isSound = true) (hc : c.Compilable) :
    d.decider? c = (d.utilities.get c.root).find? (·.isUsable d.theme d.settings c) := by
  refine List.find?_congr fun e he => ?_
  have hsound := List.all_eq_true.1 hd e (List.mem_filter.1 he).1
  exact UtilityEntry.isNone_refusal? (Utility.answered_assign hsound hc)

/-- The first entry with the name of a candidate that does not refuse it decides: its outcome, and
    no other, is that of the candidate, as if no other entry were there, and whatever entries are
    added behind. If all refuse, the reason is that of the first. In a sound design this is the
    first entry that takes what was read. -/
theorem compile_decider (d : Design) {c : Candidate} (hkind : c.kind ≠ .arbitrary) :
    (∀ e, d.decider? c = some e →
      d.utilities.assign d.theme d.settings c
          = (e.utility.assign d.theme d.settings c).map (.entry e, ·) ∧
        c.compile (d.withEntries [e]) = c.compile d ∧
        ∀ more, c.compile (d.withEntries (d.utilities.entries ++ more)) = c.compile d) ∧
    (d.decider? c = none → c.compile d = .ok (.refused
      (((d.utilities.get c.root).head?.bind (·.refusal? d.theme d.settings c)).getD
        (.unknownUtility c.root)))) ∧
    (d.isSound = true → c.Compilable →
      d.decider? c = (d.utilities.get c.root).find? (·.isUsable d.theme d.settings c)) := by
  refine ⟨fun e he => ⟨?_, ?_, fun more => ?_⟩, fun hnone => ?_, decider?_eq_find?_isUsable⟩
  · rw [assign_eq hkind, he]
  · exact compile_withEntries hkind ((decider?_alone he).trans he.symm) (he ▸ rfl)
  · exact compile_withEntries hkind (decider?_append (he ▸ rfl) more) (he ▸ rfl)
  · have hassign := @assign_eq c d hkind
    rw [hnone] at hassign
    exact Candidate.compile_of_error hassign

/-- A design that has nothing but utilities. -/
def ofUtilities (utilities : List Utility) : Design where
  theme := ⟨.empty⟩
  utilities := .ofUtilities utilities
  variants := ⟨[], true⟩
  settings := .stock
  utilities_frozen := rfl
  variants_frozen := rfl

/-- A utility that declares a property with any number. -/
def numbers (name property : Text) (template : Template) : Utility :=
  .dynamic name [{ UtilityRule.ofProperties [property] with bare := [.integer], template }] none
    false

/-- The class `flex-2`, or `x-2`, and so on. -/
def numbered (name number : Text) : Candidate where
  raw := name ++ '-' :: number
  kind := .functional
  root := name
  value := some (.named number none)
  modifier := none
  variants := []
  important := false
  negative := false
  property := none

/-- Three utilities of one name, of which the first takes no value. -/
def flexes : Design :=
  ofUtilities [.static "flex" [("display", "flex")], numbers "flex" "flex" .hole,
    numbers "flex" "flex-grow" .hole]

/-- The second decides, and no further entry changes that. -/
theorem compile_decider_of_second :
    let c := numbered "flex" "2"
    let second : UtilityEntry := ⟨1, numbers "flex" "flex" .hole⟩
    let compiled : Except Fault Compilation :=
      .ok (.produced (.rule ".flex-2" [.declaration ⟨"flex", "2", false⟩]) (.entry second))
    flexes.candidateOf? "flex-2" = some c ∧ c.kind ≠ .arbitrary ∧
      flexes.decider? c = some second ∧ c.compile flexes = compiled ∧
      c.compile (flexes.withEntries [second]) = compiled ∧
      ∀ more, c.compile (flexes.withEntries (flexes.utilities.entries ++ more)) = compiled :=
  have h := (compile_decider flexes (c := numbered "flex" "2") (by decide)).1 _ rfl
  ⟨rfl, by decide, rfl, rfl, h.2.1, h.2.2⟩

/-- An entry that breaks off is not passed over, though the next would take the class and no default
    value lacks a rule. -/
theorem compile_of_unfillable :
    let c := numbered "x" "3"
    let second : UtilityEntry := ⟨1, numbers "x" "width" .hole⟩
    let twice := (Template.ofText? "\x7b\x7d\x7b\x7d").get rfl
    let d := ofUtilities [numbers "x" "width" twice, second.utility]
    (∀ e ∈ d.utilities.entries, e.utility.declaresDefault = true) ∧
      d.candidateOf? "x-3" = some c ∧ c.kind ≠ .arbitrary ∧
      (d.utilities.get c.root).find? (·.isUsable d.theme d.settings c) = some second ∧
      c.compile d = .error (.template (.missingValue 1)) := by
  refine ⟨?_, rfl, ?_, rfl, rfl⟩ <;> decide

end Design

end UtilityCss
