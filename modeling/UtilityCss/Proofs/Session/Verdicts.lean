import Mathlib.Tactic.Choose
import UtilityCss.Proofs.Cascade.Ranking
import UtilityCss.Proofs.Compilation.Faultless

/-!
# One verdict on every class

Compiling, batches, ranks, findings and rejections each decide on their own whether a class gives
CSS. In a sound design they all come to the same *verdict*: the class is usable, or it cannot be
read, or it can be read but gives no CSS for some reason.

* `Design.verdictOn`: the verdict on a class;
* `Design.Agrees`: what a session says of one class is to the effect of a verdict;
* `libraryFindings_of_isSound`: the errors among the findings of the library follow the verdict;
* `acceptFindings_flatMap`: of the findings on some classes, those on the first unusable one are
  rejected;
* `Design.verdicts_agree`: a sound design agrees with its verdicts, also in strict mode.
-/

namespace UtilityCss

/-- What comes of a class. -/
inductive Verdict where
  /-- It gives CSS. -/
  | usable
  /-- It cannot be read. -/
  | unreadable
  /-- It is read but gives no CSS, for a reason. -/
  | withoutCss (reason : Refusal)
  deriving DecidableEq, Repr

namespace Verdict

/-- Why the class gives no CSS. -/
def refusal? : Verdict → Option Refusal
  | usable => none
  | unreadable => some .unparsable
  | withoutCss reason => some reason

/-- The errors that the library finds about the class. -/
def errorsOn (raw : Text) : Verdict → List Finding
  | usable => []
  | unreadable => [.unreadable raw]
  | withoutCss reason => [.withoutCss raw reason.message]

theorem errorsOn_eq_nil {v : Verdict} {raw : Text} : v.errorsOn raw = [] ↔ v = usable := by
  cases v <;> simp [errorsOn]

theorem isError_of_mem_errorsOn {v : Verdict} {raw : Text} {f : Finding}
    (h : f ∈ v.errorsOn raw) : f.isError = true ∧ f.candidate = raw := by
  cases v with
  | usable => simp [errorsOn] at h
  | unreadable => rw [List.mem_singleton.1 h]; exact ⟨rfl, rfl⟩
  | withoutCss reason => rw [List.mem_singleton.1 h]; exact ⟨rfl, rfl⟩

end Verdict

namespace Design

/-! ## The verdict -/

/-- The verdict on a class. -/
def verdictOn (d : Design) (raw : Text) : Verdict :=
  match d.candidateOf? raw with
  | none => .unreadable
  | some candidate =>
    match candidate.compile d with
    | .ok (.refused reason) => .withoutCss reason
    | _ => .usable

/-- What a session says of one class is to the effect of a verdict, and it always says it. -/
structure Agrees (d : Design) (before : List Request) (raw : Text) (verdict : Verdict) :
    Prop where
  /-- The class is read unless it is unreadable. -/
  reads : ∃ c, d.replyAfter before (.readClass raw) = .ok (.candidate c) ∧
    (c = none ↔ verdict = .unreadable)
  /-- It has no node exactly if it is refused. -/
  compiles : ∃ report, d.replyAfter before (.compile raw) = .ok (.compilation report) ∧
    report.refusal = verdict.refusal?.map Refusal.message ∧
    (report.nodes = [] ↔ verdict ≠ .usable)
  /-- A batch gives every class, and this one without CSS unless it is usable. -/
  batches : ∀ classes, ∃ results,
    d.replyAfter before (.batch classes false) = .ok (.batch results) ∧
    results.map Prod.fst = classes ∧ ∀ css, (raw, css) ∈ results → (css = none ↔ verdict ≠ .usable)
  /-- Ranks are given for every class, and for this one unless it is not usable. -/
  ranks : ∀ classes, ∃ rows, d.replyAfter before (.order classes) = .ok (.order rows) ∧
    rows.map Prod.fst = classes ∧ ∀ rank, (raw, rank) ∈ rows → (rank = none ↔ verdict ≠ .usable)
  /-- The findings are those of the library and then those of the extra rules. The errors among
      the former follow the verdict. -/
  finds : ∃ library, library.filter (·.isError) = verdict.errorsOn raw ∧ ∀ extra,
    d.replyAfter before (.findingsOn raw extra)
      = .ok (.findings (library ++ extra.flatMap (· raw)))

variable {d : Design}

theorem compilationOf_eq (h : d.isSound = true) (raw : Text) :
    ∃ c, d.compilationOf raw = .ok c ∧ c.refusal? = (d.verdictOn raw).refusal? ∧
      (c.nodes = [] ↔ d.verdictOn raw ≠ .usable) := by
  obtain ⟨c, hc⟩ := exists_compilationOf h raw
  refine ⟨c, hc, ?_⟩
  rw [compilationOf] at hc
  rw [verdictOn]
  cases hr : d.candidateOf? raw with
  | none =>
    rw [hr] at hc
    cases hc
    simp [Compilation.refusal?, Verdict.refusal?, Compilation.nodes]
  | some candidate =>
    simp only [hr] at hc
    cases c with
    | produced node source => simp [hc, Compilation.refusal?, Verdict.refusal?, Compilation.nodes]
    | refused reason => simp [hc, Compilation.refusal?, Verdict.refusal?, Compilation.nodes]

/-- The errors that the library finds follow the verdict. -/
theorem libraryFindings_of_isSound (h : d.isSound = true) (raw : Text) :
    ∃ found, d.libraryFindings raw = .ok found ∧
      found.filter (·.isError) = (d.verdictOn raw).errorsOn raw := by
  obtain ⟨c, hc, -⟩ := compilationOf_eq h raw
  rw [compilationOf] at hc
  rw [libraryFindings, verdictOn]
  cases hr : d.candidateOf? raw with
  | none => exact ⟨_, rfl, rfl⟩
  | some candidate =>
    simp only [hr] at hc
    -- The finding about a mark in front is no error.
    have hmark : (if raw.head? = some '!' then [Finding.leadingMark raw] else []).filter
        (·.isError) = [] := by
      split <;> rfl
    dsimp only
    cases c with
    | produced node source =>
      refine ⟨_, by rw [hc]; rfl, ?_⟩
      rw [hc]
      exact hmark
    | refused reason =>
      refine ⟨_, by rw [hc]; rfl, ?_⟩
      rw [List.filter_append, hmark, List.append_nil, hc]
      rfl

theorem findingsAbout_nil {raw : Text} : d.findingsAbout [] raw = d.libraryFindings raw := by
  rw [findingsAbout]
  cases d.libraryFindings raw <;> simp [Except.map]

/-! ## Batches -/

theorem cssOf_lenient (h : d.isSound = true) (raw : Text) :
    ∃ css, d.cssOf false raw = .ok (raw, css) ∧ (css = none ↔ d.verdictOn raw ≠ .usable) := by
  obtain ⟨c, hc, -, hnodes⟩ := compilationOf_eq h raw
  rw [cssOf]
  rw [hc, ← hnodes]
  cases c with
  | produced node source => exact ⟨_, rfl, by simp [Compilation.nodes]⟩
  | refused reason => exact ⟨none, rfl, by simp [Compilation.nodes]⟩

theorem cssOf_strict (h : d.isSound = true) {raw : Text} (hv : d.verdictOn raw = .usable) :
    ∃ css, d.cssOf true raw = .ok (raw, css) := by
  obtain ⟨c, hc, -, hnodes⟩ := compilationOf_eq h raw
  rw [cssOf]
  rw [hc]
  cases c with
  | produced node source => exact ⟨_, rfl⟩
  | refused reason => exact absurd hv (hnodes.1 rfl)

theorem cssOf_strict_of_ne (h : d.isSound = true) {raw : Text} (hv : d.verdictOn raw ≠ .usable) :
    ∃ found, d.cssOf true raw = .error (.rejected ⟨raw, found⟩) ∧
      found.filter (·.isError) = (d.verdictOn raw).errorsOn raw := by
  obtain ⟨c, hc, -, hnodes⟩ := compilationOf_eq h raw
  obtain ⟨found, hfound, herrors⟩ := libraryFindings_of_isSound h raw
  refine ⟨found, ?_, herrors⟩
  rw [cssOf]
  rw [hc]
  cases c with
  | produced node source => exact absurd (hnodes.2 hv) (List.cons_ne_nil _ _)
  | refused reason =>
    dsimp only
    rw [if_pos rfl, findingsAbout_nil, hfound]

/-! ## Ranks -/

theorem keyOf_of_isSound (h : d.isSound = true) (raw : Text) :
    d.keyOf raw = .ok (d.key? raw) ∧ (d.key? raw = none ↔ d.verdictOn raw ≠ .usable) := by
  obtain ⟨c, hc, -, hnodes⟩ := compilationOf_eq h raw
  have hkey : ∃ k, d.keyOf raw = .ok k := by
    rw [compilationOf] at hc
    rw [keyOf]
    cases hr : d.candidateOf? raw with
    | none => exact ⟨none, rfl⟩
    | some candidate =>
      simp only [hr] at hc
      dsimp only
      exact ⟨_, by rw [hc]; rfl⟩
  obtain ⟨k, hk⟩ := hkey
  refine ⟨by rw [hk, keyOf_eq_ok hk], ?_⟩
  rw [← Option.not_isSome_iff_eq_none, isSome_key?, ← hnodes, hc]
  simp

/-! ## Rejections -/

/-- Of the findings on a row of distinct classes, the errors on the first class that has some are
    rejected. -/
theorem acceptFindings_flatMap {ι : Type} {name : ι → Text} {found errors : ι → List Finding}
    {row : List ι} (herrors : ∀ i, (found i).filter (·.isError) = errors i)
    (hcandidate : ∀ i ∈ row, ∀ f ∈ errors i, f.candidate = name i)
    (hnodup : (row.map name).Nodup) :
    acceptFindings (row.flatMap found) =
      match row.find? fun i => !(errors i).isEmpty with
      | none => .ok (row.flatMap found)
      | some i => .error (.rejected ⟨name i, errors i⟩) := by
  have hfilter : (row.flatMap found).filter (·.isError) = row.flatMap errors := by
    simp only [List.filter_flatMap, herrors]
  rw [acceptFindings]
  rw [hfilter]
  cases hfind : row.find? fun i => !(errors i).isEmpty with
  | none =>
    have hnil : row.flatMap errors = [] := List.flatMap_eq_nil_iff.2 fun i hi => by
      simpa using List.find?_eq_none.1 hfind i hi
    rw [hnil]
  | some i =>
    obtain ⟨hi, before, after, rfl, hbefore⟩ := List.find?_eq_some_iff_append.1 hfind
    obtain ⟨first, more, hfirst⟩ : ∃ first more, errors i = first :: more :=
      List.exists_cons_of_ne_nil (by simpa using hi)
    have hnil : before.flatMap errors = [] := List.flatMap_eq_nil_iff.2 fun i hi => by
      simpa using hbefore i hi
    have hcand : first.candidate = name i := hcandidate i (by simp) first (by simp [hfirst])
    -- The class comes only once, so that all its errors stand together.
    have hself : (errors i).filter (·.candidate = name i) = errors i :=
      List.filter_eq_self.2 fun f hf => decide_eq_true (hcandidate i (by simp) f hf)
    have hafter : (after.flatMap errors).filter (·.candidate = name i) = [] := by
      refine List.filter_eq_nil_iff.2 fun f hf => ?_
      obtain ⟨other, hother, hf⟩ := List.mem_flatMap.1 hf
      rw [List.map_append, List.map_cons] at hnodup
      have hne : name i ∉ after.map name :=
        (List.nodup_cons.1 (List.nodup_append.1 hnodup).2.1).1
      rw [decide_eq_true_eq, hcandidate other (by simp [hother]) f hf]
      exact fun heq => hne (heq ▸ List.mem_map_of_mem hother)
    rw [List.flatMap_append, hnil, List.nil_append, List.flatMap_cons, hfirst, List.cons_append]
    dsimp only
    rw [hcand, ← List.cons_append, ← hfirst, List.filter_append, hself, hafter, List.append_nil]

/-! ## Agreement -/

theorem agrees (h : d.isSound = true) (before : List Request) (raw : Text) :
    d.Agrees before raw (d.verdictOn raw) where
  reads := by
    refine ⟨d.candidateOf? raw, d.replyAfter_eq before rfl, ?_⟩
    rw [verdictOn]
    cases d.candidateOf? raw with
    | none => simp
    | some candidate =>
      dsimp only
      split <;> simp
  compiles := by
    obtain ⟨c, hc, hrefusal, hnodes⟩ := compilationOf_eq h raw
    refine ⟨c.report d.utilities, replyAfter_compile.2 ⟨c, hc, rfl⟩, ?_, hnodes⟩
    rw [← hrefusal]
    rfl
  batches classes := by
    choose css hcss hnone using cssOf_lenient h
    refine ⟨classes.map fun raw => (raw, css raw), ?_, ?_, fun css' hmem => ?_⟩
    · rw [d.replyAfter_eq before rfl, mapM_eq_ok.2]
      · rfl
      · rw [List.map_map]
        exact List.map_congr_left fun raw _ => hcss raw
    · rw [List.map_map]
      exact List.map_id _
    · obtain ⟨raw', -, heq⟩ := List.mem_map.1 hmem
      cases heq
      exact hnone raw
  ranks classes := by
    have hkey (raw : Text) := keyOf_of_isSound h raw
    have hranked : RankedBy d.key? classes (ranked (keyedBy d.key? classes) classes) :=
      ranked_keyedBy raw_of_key?
    refine ⟨_, replyAfter_order.2 (rankAll_eq_ok.2 ⟨fun raw _ => ⟨_, (hkey raw).1⟩, rfl⟩),
      hranked.map_fst, fun rank hmem => ?_⟩
    rw [← (hkey raw).2, ← Option.not_isSome_iff_eq_none, ← Option.not_isSome_iff_eq_none,
      hranked.isSome_iff _ hmem]
  finds := by
    obtain ⟨found, hfound, herrors⟩ := libraryFindings_of_isSound h raw
    refine ⟨found, herrors, fun extra => ?_⟩
    rw [d.replyAfter_eq before rfl, findingsAbout, hfound]
    rfl

/-- In strict mode a batch stops at the first class that is not usable. -/
theorem mapM_cssOf_strict (h : d.isSound = true) (classes : List Text) :
    match classes.find? fun raw => d.verdictOn raw ≠ .usable with
    | none => ∃ results, classes.mapM (d.cssOf true) = .ok results
    | some raw => ∃ found, found.filter (·.isError) = (d.verdictOn raw).errorsOn raw ∧
        classes.mapM (d.cssOf true) = .error (.rejected ⟨raw, found⟩) := by
  split
  · next hfind =>
    have husable : ∀ raw ∈ classes, ∃ row, d.cssOf true raw = .ok row := fun raw hraw => by
      obtain ⟨css, hcss⟩ := cssOf_strict h (by simpa using List.find?_eq_none.1 hfind raw hraw)
      exact ⟨_, hcss⟩
    cases hm : classes.mapM (d.cssOf true) with
    | ok results => exact ⟨results, rfl⟩
    | error i =>
      obtain ⟨before, raw, after, rfl, -, hraw⟩ := mapM_eq_error.1 hm
      obtain ⟨row, hrow⟩ := husable raw (by simp)
      rw [hrow] at hraw
      cases hraw
  · next raw hfind =>
    obtain ⟨hraw, before, after, rfl, hbefore⟩ := List.find?_eq_some_iff_append.1 hfind
    obtain ⟨found, hfound, herrors⟩ := cssOf_strict_of_ne h (by simpa using hraw)
    refine ⟨found, herrors, mapM_eq_error.2 ⟨before, raw, after, rfl, fun raw hraw => ?_, hfound⟩⟩
    obtain ⟨css, hcss⟩ := cssOf_strict h (by simpa using hbefore raw hraw)
    exact ⟨_, hcss⟩

/-- The findings on some classes are rejected at the first class that is not usable. -/
theorem reviewOrReject_eq (h : d.isSound = true) (classes : List Text) :
    match classes.find? fun raw => d.verdictOn raw ≠ .usable with
    | none => ∃ found,
        (ofFault (d.findingsAboutAll [] classes) >>= acceptFindings) = .ok found
    | some raw => (ofFault (d.findingsAboutAll [] classes) >>= acceptFindings)
        = .error (.rejected ⟨raw, (d.verdictOn raw).errorsOn raw⟩) := by
  choose found hfound herrors using libraryFindings_of_isSound h
  have hall : d.findingsAboutAll [] classes = .ok (classes.eraseDups.flatMap found) := by
    rw [findingsAboutAll, (mapM_eq_ok (r := classes.eraseDups.map found)).2]
    · rfl
    · rw [List.map_map]
      exact List.map_congr_left fun raw _ => findingsAbout_nil.trans (hfound raw)
  have hnodup : (classes.eraseDups.map id).Nodup := by
    rw [List.map_id]
    exact nodup_eraseDups classes
  have haccept := acceptFindings_flatMap herrors
    (fun raw _ f hf => (Verdict.isError_of_mem_errorsOn hf).2) hnodup
  have hp : (fun raw => !((d.verdictOn raw).errorsOn raw).isEmpty)
      = fun raw => decide (d.verdictOn raw ≠ .usable) := by
    funext raw
    rw [Bool.eq_iff_iff]
    simp [Verdict.errorsOn_eq_nil]
  rw [hp, find?_eraseDups] at haccept
  rw [hall]
  change match classes.find? fun raw => d.verdictOn raw ≠ .usable with
    | none => ∃ found', acceptFindings (classes.eraseDups.flatMap found) = .ok found'
    | some raw => acceptFindings (classes.eraseDups.flatMap found) = _
  cases hfind : classes.find? fun raw => decide (d.verdictOn raw ≠ .usable) with
  | none =>
    rw [hfind] at haccept
    exact ⟨_, haccept⟩
  | some raw =>
    rw [hfind] at haccept
    exact haccept

/-- *All verdicts agree*: in a sound design, every answer of a session about a class follows the
    verdict on it. Strict batches and reviews without extra rules reject the same class, which is
    the first that is not usable, with the same message. -/
theorem verdicts_agree (h : d.isSound = true) (before : List Request) :
    (∀ raw, d.Agrees before raw (d.verdictOn raw)) ∧
    ∀ classes : List Text, match classes.find? fun raw => d.verdictOn raw ≠ .usable with
      | none =>
        (∃ results, d.replyAfter before (.batch classes true) = .ok (.batch results)) ∧
        ∃ found, d.replyAfter before (.reviewOrReject classes []) = .ok (.findings found)
      | some raw => ∃ found errors, found ≠ [] ∧
        Rejection.message ⟨raw, found⟩ = Rejection.message ⟨raw, errors⟩ ∧
        d.replyAfter before (.batch classes true) = .error (.rejected ⟨raw, found⟩) ∧
        d.replyAfter before (.reviewOrReject classes []) = .error (.rejected ⟨raw, errors⟩) := by
  refine ⟨agrees h before, fun classes => ?_⟩
  have hbatch := mapM_cssOf_strict h classes
  have hreview := reviewOrReject_eq h classes
  rw [d.replyAfter_eq before rfl, d.replyAfter_eq before rfl]
  split at hbatch
  · next hfind =>
    rw [hfind] at hreview
    obtain ⟨results, hresults⟩ := hbatch
    obtain ⟨found, hfound⟩ := hreview
    rw [hresults, hfound]
    exact ⟨⟨_, rfl⟩, _, rfl⟩
  · next raw hfind =>
    rw [hfind] at hreview
    obtain ⟨found, herrors, hfound⟩ := hbatch
    have hne : (d.verdictOn raw).errorsOn raw ≠ [] :=
      fun hnil => by simpa [Verdict.errorsOn_eq_nil.1 hnil] using List.find?_some hfind
    refine ⟨found, (d.verdictOn raw).errorsOn raw, ?_, ?_, by rw [hfound]; rfl,
    by rw [hreview]; rfl⟩
    · rintro rfl
      exact hne herrors.symm
    · -- Only errors have a part in the message.
      have hself : ((d.verdictOn raw).errorsOn raw).filter (·.isError)
          = (d.verdictOn raw).errorsOn raw :=
        List.filter_eq_self.2 fun f hf => (Verdict.isError_of_mem_errorsOn hf).1
      simp only [Rejection.message, herrors, hself]

/-- A design with one utility, which has a default value and puts numbers into a template. -/
def columns : Design :=
  { tiny with
    utilities := .ofUtilities [.dynamic "cols"
      [{ UtilityRule.ofProperties ["grid-column"] with
        bare := [.integer], template := (Template.ofText? "span \x7b\x7d").get rfl }]
      (some "auto".toList) false]
    utilities_frozen := rfl }

/-- Two classes are usable, one cannot be read, and one has an unknown value. -/
theorem verdicts_agree_of_each_kind :
    let classes : List Text := ["cols", "!cols-2", "nope", "cols-x", "nope"]
    let verdicts : List Verdict :=
      [.usable, .usable, .unreadable, .withoutCss (.unknownValue "cols" "x"), .unreadable]
    columns.isSound = true ∧ classes.map columns.verdictOn = verdicts ∧
      columns.Agrees [.batch ["nope"] true] "cols-x" (.withoutCss (.unknownValue "cols" "x")) ∧
      ∃ found errors, found ≠ [] ∧
        Rejection.message ⟨"nope", found⟩ = Rejection.message ⟨"nope", errors⟩ ∧
        columns.replyAfter [.batch ["nope"] true] (.batch classes true)
          = .error (.rejected ⟨"nope", found⟩) ∧
        columns.replyAfter [.batch ["nope"] true] (.reviewOrReject classes [])
          = .error (.rejected ⟨"nope", errors⟩) :=
  have h := verdicts_agree (d := columns) rfl [.batch ["nope"] true]
  ⟨rfl, rfl, h.1 "cols-x", h.2 ["cols", "!cols-2", "nope", "cols-x", "nope"]⟩

/-- A design with a utility whose template asks for two values. -/
def twoHoles : Design :=
  { tiny with
    utilities := .ofUtilities [.dynamic "x"
      [{ UtilityRule.ofProperties ["width"] with
        bare := [.integer], template := (Template.ofText? "\x7b\x7d\x7b\x7d").get rfl }] none false]
    utilities_frozen := rfl }

/-- Without a template that can be filled the verdicts part: no default value lacks a rule, and a
    strict batch rejects the first class, but the review looks at both and breaks off. -/
theorem verdicts_part_of_twoHoles :
    let classes : List Text := ["nope", "x-3"]
    (∀ e ∈ twoHoles.utilities.entries, e.utility.declaresDefault = true) ∧
      twoHoles.replyAfter [] (.batch classes true)
        = .error (.rejected ⟨"nope", [.unreadable "nope"]⟩) ∧
      twoHoles.replyAfter [] (.reviewOrReject classes [])
        = .error (.fault (.template (.missingValue 1))) := by
  refine ⟨?_, rfl, rfl⟩
  decide

end Design

end UtilityCss
