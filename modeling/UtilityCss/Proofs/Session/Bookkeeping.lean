import Mathlib.Data.List.Basic
import UtilityCss.Proofs.Session.Records

/-!
# The counts of a session

A session shows how many classes it compiled and what the segments were read as that it came
upon. Both can be told from the requests alone, without the memos: each request looks at some
classes, from the left up to the first that ends it (`Design.looksAt`), reads the segments of a
class up to the first that is no variant (`Design.segmentsOf`), and compiles the classes that it
gets to (`Design.classesCompiled`). What comes again is not counted again. A class whose
compilation breaks off with a fault is never counted.

* `readSegment_adds`, `readClass_adds`, `compile_adds`: what the three stages add to the record;
* `answer_adds`, `sessionAfter_records`: what a request adds, and what a run adds;
* `Design.counts_exact`: the counts after any requests.
-/

namespace UtilityCss

/-! ## What the requests say -/

namespace Design

/-- Whether compiling a class ends a row of classes: with a fault always, and in strict mode also
    if the class gives no CSS. -/
def stops (d : Design) (strict : Bool) (raw : Text) : Bool :=
  match d.compilationOf raw with
  | .error _ => true
  | .ok (.refused _) => strict
  | .ok (.produced _ _) => false

/-- Whether compiling a class comes to an end. -/
def compiles (d : Design) (raw : Text) : Bool :=
  (d.compilationOf raw).isOk

/-- Whether a class can be read, and compiling it comes to an end. -/
def readsAndCompiles (d : Design) (raw : Text) : Bool :=
  (d.candidateOf? raw).isSome && d.compiles raw

/-- The classes that a request looks at. -/
def looksAt (d : Design) : Request → List Text
  | .readClass raw | .compile raw | .nodes raw | .cascadeKey raw | .findingsOn raw _ => [raw]
  | .batch classes strict | .css classes strict => upTo (d.stops strict) classes
  | .order classes | .review classes _ | .reviewOrReject classes _ => upTo (d.stops false) classes
  | _ => []

/-- The segments that a request reads. -/
def segmentsReached (d : Design) : Request → List Text
  | .readSegment segment => [segment]
  | request => (d.looksAt request).flatMap d.segmentsOf

/-- The classes that a request compiles. Where it does not ask for CSS, it leaves out those that
    cannot be read. -/
def classesCompiled (d : Design) : Request → List Text
  | .readClass _ => []
  | .compile raw => (d.looksAt (.compile raw)).filter d.compiles
  | .nodes raw => (d.looksAt (.nodes raw)).filter d.compiles
  | .batch classes strict => (d.looksAt (.batch classes strict)).filter d.compiles
  | .css classes strict => (d.looksAt (.css classes strict)).filter d.compiles
  | request => (d.looksAt request).filter d.readsAndCompiles

end Design

variable {d : Design} {α β : Type}

/-! ## The three stages -/

theorem readVariants_adds {read : Text → Step (Option Variant)}
    (hgives : ∀ s, Step.Gives d (read s) (d.variantOf? s)) (h : ∀ s, Step.Adds d (read s) [s])
    (segments : List Text) :
    Step.Adds d (readVariants read segments)
      (upTo (fun s => (d.variantOf? s).isNone) (segments.takeWhile (!·.isEmpty))) := by
  induction segments with
  | nil => exact .of_pure _
  | cons s segments ih =>
    rw [readVariants, List.takeWhile_cons]
    cases hempty : s.isEmpty with
    | true => exact .of_pure none
    | false =>
      have hs := hgives s
      simp only [Bool.false_eq_true, if_false, Bool.not_false, if_true, upTo]
      cases hv : d.variantOf? s with
      | none =>
        rw [hv] at hs
        exact .bind hs (h s) (.of_pure none)
      | some v =>
        rw [hv] at hs
        refine .bind hs (h s) ?_
        have hrest := readVariants_gives hgives segments
        have hall := Step.Adds.bind hrest ih (.of_pure _)
        rw [List.append_nil] at hall
        exact hall

namespace Design

theorem readSegment_adds (d : Design) (segment : Text) :
    Step.Adds d (d.readSegment segment) [segment] := by
  intro s before classes hs hr
  rw [readSegment, Step.Gives.run_fetch]
  cases hk : (Session.variantPlace.get s).get? segment with
  | some v =>
    have hmem : segment ∈ before := hr.mem_of_variant hk
    have hagain := hr.again (List.cons_subset.2 ⟨hmem, List.nil_subset _⟩) (List.nil_subset classes)
    rwa [List.append_nil] at hagain
  | none => exact hr.keep_variant segment _

theorem ofTextWith_adds (d : Design) (raw : Text) :
    Step.Adds d (Candidate.ofTextWith d.settings d.utilities d.readSegment raw)
      (d.segmentsOf raw) := by
  unfold Candidate.ofTextWith segmentsOf
  cases Outline.ofText? d.settings raw with
  | none => exact .of_pure none
  | some o =>
    have h := Step.Adds.bind (readVariants_gives d.readSegment_gives o.segments)
      (readVariants_adds d.readSegment_gives d.readSegment_adds o.segments)
      (.of_pure _)
    rw [List.append_nil] at h
    exact h

theorem readClass_adds (d : Design) (raw : Text) :
    Step.Adds d (d.readClass raw) (d.segmentsOf raw) := by
  intro s before classes hs hr
  rw [readClass, Step.Gives.run_fetch]
  cases hk : (Session.candidatePlace.get s).get? raw with
  | some c =>
    -- A class that is kept was read before, and its segments with it.
    have hreached := hr.reached raw (.inl (OrderedMap.mem_keys_of_get? hk))
    have hagain := hr.again hreached (List.nil_subset classes)
    rwa [List.append_nil] at hagain
  | none =>
    have hread := d.ofTextWith_adds raw s before classes hs hr
    simp only [StateT.run_bind]
    exact hread.keep_candidate _ (List.subset_append_right _ _)

/-- An attempt that begins by reading a class. -/
theorem reading_adds (d : Design) (raw : Text) {next : Option Candidate → Attempt β}
    {segments classes : List Text} (h : Attempt.Adds d (next (d.candidateOf? raw)) segments classes)
    (hs : segments ⊆ d.segmentsOf raw) :
    Attempt.Adds d (do let c ← d.readClass raw; next c) (d.segmentsOf raw) classes :=
  .bind_read (.of_step (d.readClass_gives raw)) (.of_step (d.readClass_adds raw)) h hs

theorem compileNew_adds (d : Design) (raw : Text) :
    Attempt.Adds d (d.compileNew raw) (d.segmentsOf raw) [] := by
  refine d.reading_adds raw ?_ (List.nil_subset _)
  cases d.candidateOf? raw with
  | none => exact .of_pure _
  | some candidate =>
    dsimp only
    cases candidate.compile d with
    | error fault => exact .of_throw _
    | ok compilation => exact .of_pure _

theorem compile_adds (d : Design) (raw : Text) :
    Attempt.Adds d (d.compile raw) (d.segmentsOf raw) ([raw].filter d.compiles) := by
  intro s before before' hs hr
  rw [compile, Attempt.Gives.run_fetch]
  cases hk : (Session.compiledPlace.get s).get? raw with
  | some c =>
    have hmem : raw ∈ before' := hr.mem_of_compiled hk
    exact hr.again (hr.reached raw (.inr hmem)) fun raw' hraw' =>
      List.mem_singleton.1 (List.mem_filter.1 hraw').1 ▸ hmem
  | none =>
    obtain ⟨s₁, hrun, hs₁⟩ := d.compileNew_gives raw s hs
    have hread := d.compileNew_adds raw s before before' hs hr
    rw [hrun, List.append_nil] at hread
    simp only [ExceptT.run_bind, StateT.run_bind, hrun]
    cases hc : d.compilationOf raw with
    | error fault =>
      have hnot : d.compiles raw = false := by rw [compiles, hc]; rfl
      rw [List.filter_cons_of_neg (by simp [hnot]), List.filter_nil, List.append_nil]
      exact hread
    | ok c =>
      have hyes : d.compiles raw = true := by rw [compiles, hc]; rfl
      rw [List.filter_cons_of_pos hyes, List.filter_nil]
      exact hread.keep_compiled c (List.subset_append_right _ _)

/-- An attempt that reads a class and compiles it if it can be read. -/
theorem readingAndCompiling_adds (d : Design) (raw : Text) {next : Option Candidate → Attempt β}
    (hnone : Attempt.Adds d (next none) [] [])
    (hsome : ∀ candidate, Attempt.Adds d (next (some candidate)) (d.segmentsOf raw)
      ([raw].filter d.compiles)) :
    Attempt.Adds d (do let c ← d.readClass raw; next c) (d.segmentsOf raw)
      ([raw].filter d.readsAndCompiles) := by
  cases hc : d.candidateOf? raw with
  | none =>
    have hnot : d.readsAndCompiles raw = false := by rw [readsAndCompiles, hc]; rfl
    rw [List.filter_cons_of_neg (by simp [hnot])]
    refine d.reading_adds raw ?_ (List.nil_subset _)
    rw [hc]
    exact hnone
  | some candidate =>
    have heq : d.readsAndCompiles raw = d.compiles raw := by rw [readsAndCompiles, hc]; rfl
    have hfilter : [raw].filter d.readsAndCompiles = [raw].filter d.compiles :=
      List.filter_congr fun raw' hraw' => by rw [List.mem_singleton.1 hraw', heq]
    rw [hfilter]
    refine d.reading_adds raw ?_ (List.Subset.refl _)
    rw [hc]
    exact hsome candidate

/-! ## Findings -/

theorem findUnreadable_adds (d : Design) (raw : Text) :
    Attempt.Adds d (d.findUnreadable raw) (d.segmentsOf raw) [] := by
  refine d.reading_adds raw ?_ (List.nil_subset _)
  split <;> exact .of_pure _

theorem findLeadingMark_adds (d : Design) (raw : Text) :
    ∃ segments, segments ⊆ d.segmentsOf raw ∧
      Attempt.Adds d (d.findLeadingMark raw) segments [] := by
  unfold findLeadingMark
  by_cases hm : raw.head? = some '!'
  · refine ⟨_, List.Subset.refl _, ?_⟩
    simp only [hm, ne_eq, not_true_eq_false, if_false]
    refine d.reading_adds raw ?_ (List.nil_subset _)
    cases d.candidateOf? raw <;> exact .of_pure _
  · refine ⟨[], List.nil_subset _, ?_⟩
    simp only [hm, ne_eq, not_false_eq_true, if_true]
    exact .of_pure []

theorem findWithoutCss_adds (d : Design) (raw : Text) :
    Attempt.Adds d (d.findWithoutCss raw) (d.segmentsOf raw)
      ([raw].filter d.readsAndCompiles) := by
  refine d.readingAndCompiling_adds raw (.of_pure []) fun candidate => ?_
  have h := d.compile_adds raw
  have hgives := d.compile_gives raw
  cases hr : d.compilationOf raw with
  | error fault =>
    rw [hr] at hgives
    exact h.bind_error hgives
  | ok c =>
    rw [hr] at hgives
    refine h.bind_again hgives ?_ (List.nil_subset _) (List.nil_subset _)
    cases c <;> exact .of_pure _

theorem libraryFindings_adds (d : Design) (raw : Text) :
    Attempt.Adds d (d.findingsOn [] raw) (d.segmentsOf raw)
      ([raw].filter d.readsAndCompiles) := by
  rw [findingsOn_nil]
  refine (d.findUnreadable_adds raw).bind_read (d.findUnreadable_gives raw) ?_
    (List.Subset.refl _)
  obtain ⟨outcome, hgives⟩ : ∃ outcome, Attempt.Gives d (d.findWithoutCss raw) outcome :=
    ⟨_, d.findWithoutCss_gives raw⟩
  cases outcome with
  | error i => exact (d.findWithoutCss_adds raw).bind_error hgives
  | ok found =>
    obtain ⟨segments, hsegments, hmark⟩ := d.findLeadingMark_adds raw
    exact (d.findWithoutCss_adds raw).bind_again hgives (hmark.map (d.findLeadingMark_gives raw))
      hsegments (List.nil_subset _)

theorem findingsOn_adds (d : Design) (extra : List TextRule) (raw : Text) :
    Attempt.Adds d (d.findingsOn (extra.map TextRule.rule) raw) (d.segmentsOf raw)
      ([raw].filter d.readsAndCompiles) := by
  rw [findingsOn_textRules]
  exact .map (d.libraryFindings_gives raw) (d.libraryFindings_adds raw)

theorem findAndMark_adds (d : Design) (extra : List TextRule) (raw : Text) :
    Attempt.Adds d (d.findAndMark (extra.map TextRule.rule) raw) (d.segmentsOf raw)
      ([raw].filter d.readsAndCompiles) := by
  have h := d.findingsOn_adds extra raw
  have hgives := d.findingsOn_gives extra raw
  cases hr : d.findingsAbout extra raw with
  | error fault =>
    rw [hr] at hgives
    exact h.bind_error hgives
  | ok found =>
    rw [hr] at hgives
    refine h.bind_again hgives ?_ (List.nil_subset _) (List.nil_subset _)
    split
    · exact (Attempt.Adds.of_mark raw).bind_ok (.of_mark raw) (.of_pure found)
    · exact .of_pure found

/-! ## Where a row ends -/

theorem stops_false (d : Design) (raw : Text) : d.stops false raw = !d.compiles raw := by
  rw [stops, compiles]
  cases d.compilationOf raw with
  | error fault => rfl
  | ok c => cases c <;> rfl

theorem isOk_ofFault (outcome : Except Fault α) : (ofFault outcome).isOk = outcome.isOk := by
  cases outcome <;> rfl

/-- A class is looked at without a fault if compiling it comes to an end, and so is one that cannot
    be read. -/
theorem isOk_findingsAbout (d : Design) (extra : List TextRule) (raw : Text) :
    (d.findingsAbout extra raw).isOk = d.compiles raw := by
  rw [findingsAbout, isOk_map, libraryFindings, compiles, compilationOf]
  cases d.candidateOf? raw with
  | none => rfl
  | some candidate => exact isOk_map _ _

theorem isOk_keyOf (d : Design) (raw : Text) : (d.keyOf raw).isOk = d.compiles raw := by
  rw [keyOf, compiles, compilationOf]
  cases d.candidateOf? raw with
  | none => rfl
  | some candidate => exact isOk_map _ _

theorem isOk_cssOf (d : Design) (strict : Bool) (raw : Text) :
    (d.cssOf strict raw).isOk = !d.stops strict raw := by
  rw [cssOf, stops]
  cases d.compilationOf raw with
  | error fault => rfl
  | ok c =>
    cases c with
    | produced node source => rfl
    | refused reason =>
      cases strict with
      | false => rfl
      | true =>
        dsimp only
        rw [if_pos rfl]
        cases d.findingsAbout [] raw <;> rfl

theorem flatMap_filter_singleton (p : Text → Bool) (l : List Text) :
    l.flatMap (fun raw => [raw].filter p) = l.filter p := by
  rw [← List.filter_flatMap, List.flatMap_singleton']

/-- A row of classes, each looked at once, is a row of classes up to repetitions. -/
theorem adds_of_eraseDups {attempt : Attempt α} {classes : List Text} {p q : Text → Bool}
    (h : Attempt.Adds d attempt ((upTo p classes.eraseDups).flatMap d.segmentsOf)
      ((upTo p classes.eraseDups).flatMap fun raw => [raw].filter q)) :
    Attempt.Adds d attempt ((upTo p classes).flatMap d.segmentsOf) ((upTo p classes).filter q) := by
  rw [upTo_eraseDups] at h
  refine h.congr (eraseDups_flatMap _ _) ?_
  rw [eraseDups_flatMap, flatMap_filter_singleton]

theorem review_adds (d : Design) (extra : List TextRule) (classes : List Text) :
    Attempt.Adds d (d.review (extra.map TextRule.rule) classes)
      ((upTo (d.stops false) classes).flatMap d.segmentsOf)
      ((upTo (d.stops false) classes).filter d.readsAndCompiles) := by
  have hgives (raw : Text) := findAndMark_gives (d.findingsOn_gives extra raw)
  have h := Attempt.Adds.mapM hgives (d.findAndMark_adds extra) classes.eraseDups
  simp only [isOk_ofFault, isOk_findingsAbout, ← stops_false] at h
  exact .map (.mapM fun raw _ => hgives raw) (adds_of_eraseDups h)

theorem reviewOrReject_adds (d : Design) (extra : List TextRule) (classes : List Text) :
    Attempt.Adds d (d.reviewOrReject (extra.map TextRule.rule) classes)
      ((upTo (d.stops false) classes).flatMap d.segmentsOf)
      ((upTo (d.stops false) classes).filter d.readsAndCompiles) := by
  have h := d.review_adds extra classes
  have hgives := d.review_gives extra classes
  cases hr : d.findingsAboutAll extra classes with
  | error fault =>
    rw [hr] at hgives
    exact h.bind_error hgives
  | ok found =>
    rw [hr] at hgives
    refine h.bind_again hgives ?_ (List.nil_subset _) (List.nil_subset _)
    cases found.filter (·.isError) with
    | nil => exact .of_pure found
    | cons first more => exact .of_throw _

/-! ## Batches and order -/

theorem compileOne_adds (d : Design) (strict : Bool) (raw : Text) :
    Attempt.Adds d (d.compileOne strict raw) (d.segmentsOf raw) ([raw].filter d.compiles) := by
  have h := d.compile_adds raw
  have hgives := d.compile_gives raw
  cases hr : d.compilationOf raw with
  | error fault =>
    rw [hr] at hgives
    exact h.bind_error hgives
  | ok c =>
    rw [hr] at hgives
    cases c with
    | produced node source =>
      exact h.bind_again hgives (.of_pure _) (List.nil_subset _) (List.nil_subset _)
    | refused reason =>
      cases strict with
      | false => exact h.bind_again hgives (.of_pure _) (List.nil_subset _) (List.nil_subset _)
      | true =>
        -- The findings look at the same class once more.
        have hsubset : [raw].filter d.readsAndCompiles ⊆ [raw].filter d.compiles :=
          (List.monotone_filter_right _ fun raw' hraw' => (Bool.and_eq_true_iff.1 hraw').2).subset
        refine h.bind_again hgives ?_ (List.Subset.refl _) hsubset
        have hfound := d.libraryFindings_adds raw
        have hfoundGives := d.findingsOn_gives [] raw
        cases hf : d.findingsAbout [] raw with
        | error fault =>
          rw [hf] at hfoundGives
          exact hfound.bind_error hfoundGives
        | ok found =>
          rw [hf] at hfoundGives
          exact hfound.bind_again hfoundGives
            ((Attempt.Adds.of_throw _).bind_error (.of_throw _)) (List.nil_subset _)
            (List.nil_subset _)

theorem compileAll_adds (d : Design) (strict : Bool) (classes : List Text) :
    Attempt.Adds d (d.compileAll strict classes)
      ((upTo (d.stops strict) classes).flatMap d.segmentsOf)
      ((upTo (d.stops strict) classes).filter d.compiles) := by
  have h := Attempt.Adds.mapM (d.compileOne_gives strict) (d.compileOne_adds strict) classes
  simp only [isOk_cssOf, Bool.not_not, flatMap_filter_singleton] at h
  exact h

theorem cascadeKey_adds (d : Design) (raw : Text) :
    Attempt.Adds d (d.cascadeKey raw) (d.segmentsOf raw) ([raw].filter d.readsAndCompiles) :=
  d.readingAndCompiling_adds raw (.of_pure none) fun _ =>
    (d.compile_adds raw).map (d.compile_gives raw)

theorem classOrder_adds (d : Design) (classes : List Text) :
    Attempt.Adds d (d.classOrder classes)
      ((upTo (d.stops false) classes).flatMap d.segmentsOf)
      ((upTo (d.stops false) classes).filter d.readsAndCompiles) := by
  refine .map (d.keyedClasses_gives classes) (adds_of_eraseDups ?_)
  have hstops : (fun raw => !((ofFault (d.keyOf raw)).map (·.map (raw, ·))).isOk) = d.stops false :=
    funext fun raw => by rw [isOk_map, isOk_ofFault, isOk_keyOf, stops_false]
  rw [← hstops]
  exact .filterMapM (fun raw => (d.cascadeKey_gives raw).map)
    (fun raw => (d.cascadeKey_adds raw).map (d.cascadeKey_gives raw)) classes.eraseDups

/-! ## Requests -/

theorem adds_of_one {attempt : Attempt α} {raw : Text} {classes : List Text}
    (h : Attempt.Adds d attempt (d.segmentsOf raw) classes) :
    Attempt.Adds d attempt ([raw].flatMap d.segmentsOf) classes := by
  rwa [List.flatMap_singleton]

/-- A request adds what it says. -/
theorem answer_adds (d : Design) (request : Request) :
    Attempt.Adds d (d.answer request) (d.segmentsReached request) (d.classesCompiled request) := by
  cases request with
  | readClass raw =>
    exact adds_of_one (.map (.of_step (d.readClass_gives raw)) (.of_step (d.readClass_adds raw)))
  | readSegment segment =>
    exact .map (.of_step (d.readSegment_gives segment)) (.of_step (d.readSegment_adds segment))
  | compile raw => exact adds_of_one (.map (d.compile_gives raw) (d.compile_adds raw))
  | nodes raw => exact adds_of_one (.map (d.compile_gives raw) (d.compile_adds raw))
  | batch classes strict =>
    exact .map (d.compileAll_gives strict classes) (d.compileAll_adds strict classes)
  | css classes strict =>
    exact .map (d.compileAll_gives strict classes) (d.compileAll_adds strict classes)
  | order classes => exact .map (d.classOrder_gives classes) (d.classOrder_adds classes)
  | cascadeKey raw => exact adds_of_one (.map (d.cascadeKey_gives raw) (d.cascadeKey_adds raw))
  | findingsOn raw extra =>
    exact adds_of_one (.map (d.findingsOn_gives extra raw) (d.findingsOn_adds extra raw))
  | review classes extra => exact .map (d.review_gives extra classes) (d.review_adds extra classes)
  | reviewOrReject classes extra =>
    exact .map (d.reviewOrReject_gives extra classes) (d.reviewOrReject_adds extra classes)
  | reportVariant v => exact .of_pure _
  | compileWith candidate settings =>
    dsimp only [answer]
    cases candidate.compile { d with settings } with
    | error fault => exact .of_throw _
    | ok compilation => exact .of_pure _
  | classOffers start => exact .of_pure _
  | variantOffers start => exact .of_pure _
  | markInvalid raw => exact .map (.of_mark raw) (.of_mark raw)
  | registerUtility u =>
    dsimp only [answer]
    cases d.utilities.register u with
    | error e => exact .of_throw _
    | ok table => exact .of_pure _
  | registerVariant definition =>
    dsimp only [answer]
    cases d.variants.register definition with
    | error e => exact .of_throw _
    | ok table => exact .of_pure _
  | segmentsRead | isInvalid | describe =>
    -- What the session tells of itself changes nothing in it.
    exact fun _ _ _ _ hr => hr.again (List.nil_subset _) (List.nil_subset _)

/-! ## Runs -/

/-- After any requests the record holds what each of them adds, in order. -/
theorem sessionAfter_records (d : Design) (requests : List Request) {s : Session}
    {segments classes : List Text} (hs : s.Faithful d) (hr : s.Records d segments classes) :
    (d.sessionAfter s requests).Records d (segments ++ requests.flatMap d.segmentsReached)
      (classes ++ requests.flatMap d.classesCompiled) := by
  induction requests generalizing s segments classes with
  | nil => exact hr.again (List.nil_subset _) (List.nil_subset _)
  | cons request requests ih =>
    have hone : (d.respond request s).2.Records d _ _ :=
      d.answer_adds request s segments classes hs hr
    rw [List.flatMap_cons, List.flatMap_cons, ← List.append_assoc, ← List.append_assoc]
    exact ih (d.respond_faithful request hs) hone

/-- The counts of a session are exact. After any requests the session has counted the classes that
    were compiled, each once, and lists what the segments that were reached are read as, each once
    and in the order in which they were reached first. -/
theorem counts_exact (d : Design) (requests : List Request) :
    let s := d.sessionAfter .start requests
    s.compiledCount = (requests.flatMap d.classesCompiled).eraseDups.length ∧
      s.segmentsRead = (requests.flatMap d.segmentsReached).eraseDups.map d.variantOf? := by
  intro s
  have hs : s.Faithful d := d.sessionAfter_faithful requests (Session.start_faithful d)
  have hr := d.sessionAfter_records requests (Session.start_faithful d) (Session.start_records d)
  refine ⟨?_, ?_⟩
  · have hkeys : s.compiledCount = s.compiled.keys.length := (List.length_map _).symm
    rw [hkeys, hr.compiled, List.nil_append]
  · rw [Session.segmentsRead, OrderedMap.values_eq_map hs.variants, hr.variants, List.nil_append]

/-- A class whose compilation breaks off is not counted, though it was given to compile. -/
theorem count_of_twoHoles :
    let requests : List Request := [.compile "x-3"]
    (twoHoles.sessionAfter .start requests).compiledCount = 0 ∧
      requests.flatMap twoHoles.looksAt = ["x-3".toList] :=
  ⟨rfl, rfl⟩

end Design

end UtilityCss
