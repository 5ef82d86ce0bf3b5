import UtilityCss.Proofs.Session.Bookkeeping

/-!
# Which classes a session finds invalid

Most of what a session does leaves the set of invalid classes alone (`Step.Quiet`, `Attempt.Quiet`):
reading, compiling, and even looking for findings. Only a review and an explicit mark add to it. A
review adds the classes on which it finds an error, each as soon as it is looked at, so that those
before a fault stay marked when the review breaks off.

* `Attempt.Marks`: the classes that an attempt marks in every session;
* `Attempt.Marks.mapM`: a row of attempts marks what those up to the first interruption mark;
* `Design.answer_marks`: what a request marks;
* `Design.sessionAfter_isInvalid`: which classes are invalid after any requests.
-/

namespace UtilityCss

theorem Session.isInvalid_markInvalid {s : Session} {raw raw' : Text} :
    (s.markInvalid raw).isInvalid raw' = true ↔ s.isInvalid raw' = true ∨ raw' = raw := by
  rw [markInvalid]
  split
  · next h =>
    refine (or_iff_left_of_imp ?_).symm
    rintro rfl
    exact h
  · simp [isInvalid]

variable {d : Design} {α β : Type}

/-! ## What marks nothing -/

/-- The step leaves the invalid classes alone. -/
def Step.Quiet (step : Step α) : Prop :=
  ∀ s : Session, (step.run s).2.invalid = s.invalid

/-- The attempt leaves the invalid classes alone, also if it is interrupted. -/
def Attempt.Quiet (attempt : Attempt α) : Prop :=
  ∀ s : Session, (attempt.run.run s).2.invalid = s.invalid

namespace Step.Quiet

theorem of_pure (value : α) : Step.Quiet (pure value) :=
  fun _ => rfl

theorem bind {step : Step α} {next : α → Step β} (h : Step.Quiet step)
    (hnext : ∀ value, Step.Quiet (next value)) : Step.Quiet (step >>= next) := by
  intro s
  rw [StateT.run_bind]
  exact (hnext _ _).trans (h s)

theorem fetch {place : MemoPlace Session α} {compute : Text → Step α} {key : Text}
    (hkeep : ∀ value s, (place.keep key value s).invalid = s.invalid)
    (h : Step.Quiet (compute key)) : Step.Quiet (place.fetch compute key) := by
  have hnext (value : α) :
      Step.Quiet (do modifyThe Session (place.keep key value); return value) := hkeep value
  intro s
  rw [Gives.run_fetch]
  split
  · rfl
  · exact bind h hnext s

end Step.Quiet

namespace Attempt.Quiet

theorem of_pure (value : α) : Attempt.Quiet (pure value) :=
  fun _ => rfl

theorem of_throw (i : Interruption) : Attempt.Quiet (throw i : Attempt α) :=
  fun _ => rfl

theorem of_step {step : Step α} (h : Step.Quiet step) : Attempt.Quiet (liftM step) := by
  intro s
  change ((Except.ok <$> step).run s).2.invalid = s.invalid
  rw [StateT.run_map]
  exact h s

theorem bind {attempt : Attempt α} {next : α → Attempt β} (h : Attempt.Quiet attempt)
    (hnext : ∀ value, Attempt.Quiet (next value)) : Attempt.Quiet (attempt >>= next) := by
  intro s
  have hs := h s
  rw [ExceptT.run_bind, StateT.run_bind]
  generalize attempt.run.run s = result at hs
  obtain ⟨outcome, s₁⟩ := result
  rcases outcome with i | value
  · exact hs
  · exact (hnext value s₁).trans hs

theorem map {attempt : Attempt α} {f : α → β} (h : Attempt.Quiet attempt) :
    Attempt.Quiet (do return f (← attempt)) :=
  bind h fun _ => of_pure _

theorem fetch {place : MemoPlace Session α} {compute : Text → Attempt α} {key : Text}
    (hkeep : ∀ value s, (place.keep key value s).invalid = s.invalid)
    (h : Attempt.Quiet (compute key)) : Attempt.Quiet (place.fetch compute key) := by
  have hnext (value : α) :
      Attempt.Quiet (do modifyThe Session (place.keep key value); return value) := hkeep value
  intro s
  rw [Gives.run_fetch]
  split
  · rfl
  · exact bind h hnext s

theorem mapM {f : α → Attempt β} {l : List α} (h : ∀ a ∈ l, Attempt.Quiet (f a)) :
    Attempt.Quiet (l.mapM f) := by
  induction l with
  | nil => exact of_pure []
  | cons a l ih =>
    obtain ⟨ha, hl⟩ := List.forall_mem_cons.1 h
    rw [List.mapM_cons]
    exact bind ha fun _ => map (ih hl)

theorem filterMapM {f : Text → Attempt (Option β)} (h : ∀ a, Attempt.Quiet (f a))
    (l : List Text) : Attempt.Quiet (l.filterMapM f) := by
  induction l with
  | nil => exact of_pure []
  | cons a l ih =>
    rw [List.filterMapM_cons]
    refine bind (h a) fun b => ?_
    rcases b with _ | b
    · exact ih
    · exact map ih

end Attempt.Quiet

theorem readVariants_quiet {read : Text → Step (Option Variant)}
    (h : ∀ segment, Step.Quiet (read segment)) (segments : List Text) :
    Step.Quiet (readVariants read segments) := by
  induction segments with
  | nil => exact .of_pure _
  | cons segment segments ih =>
    rw [readVariants]
    split
    · exact .of_pure none
    · refine .bind (h segment) fun v => ?_
      rcases v with _ | v
      · exact .of_pure none
      · exact .bind ih fun _ => .of_pure _

namespace Design

theorem readSegment_quiet (d : Design) (segment : Text) : Step.Quiet (d.readSegment segment) :=
  .fetch (fun _ _ => rfl) (.of_pure _)

theorem readClass_quiet (d : Design) (raw : Text) : Step.Quiet (d.readClass raw) := by
  refine .fetch (fun _ _ => rfl) ?_
  rw [Candidate.ofTextWith]
  rcases Outline.ofText? d.settings raw with _ | outline
  · exact .of_pure none
  · exact .bind (readVariants_quiet d.readSegment_quiet _) fun _ => .of_pure _

theorem reading_quiet (d : Design) (raw : Text) {next : Option Candidate → Attempt β}
    (h : ∀ c, Attempt.Quiet (next c)) :
    Attempt.Quiet (do let c ← d.readClass raw; next c) :=
  .bind (.of_step (d.readClass_quiet raw)) h

theorem compile_quiet (d : Design) (raw : Text) : Attempt.Quiet (d.compile raw) := by
  refine .fetch (fun _ _ => rfl) (d.reading_quiet raw fun c => ?_)
  rcases c with _ | candidate
  · exact .of_pure _
  · dsimp only
    split
    · exact .of_pure _
    · exact .of_throw _

theorem findWithoutCss_quiet (d : Design) (raw : Text) :
    Attempt.Quiet (d.findWithoutCss raw) := by
  refine d.reading_quiet raw fun c => ?_
  split
  · exact .of_pure []
  · refine .bind (d.compile_quiet raw) fun compilation => ?_
    split <;> exact .of_pure _

theorem findLeadingMark_quiet (d : Design) (raw : Text) :
    Attempt.Quiet (d.findLeadingMark raw) := by
  rw [findLeadingMark]
  split
  · exact .of_pure []
  · refine d.reading_quiet raw fun c => ?_
    split <;> exact .of_pure _

theorem findUnreadable_quiet (d : Design) (raw : Text) :
    Attempt.Quiet (d.findUnreadable raw) := by
  refine d.reading_quiet raw fun c => ?_
  split <;> exact .of_pure _

/-- Looking for findings marks nothing, if the extra rules mark nothing. -/
theorem findingsOn_quiet {extra : List FindingRule} {raw : Text}
    (h : ∀ rule ∈ extra, Attempt.Quiet (rule d raw)) : Attempt.Quiet (d.findingsOn extra raw) := by
  refine .map (.mapM (List.forall_mem_append.2 ⟨?_, h⟩))
  simp only [libraryRules, List.forall_mem_cons]
  exact ⟨d.findUnreadable_quiet raw, d.findWithoutCss_quiet raw, d.findLeadingMark_quiet raw,
    List.forall_mem_nil _⟩

theorem findingsOn_quiet_textRules (d : Design) (extra : List TextRule) (raw : Text) :
    Attempt.Quiet (d.findingsOn (extra.map TextRule.rule) raw) :=
  findingsOn_quiet (List.forall_mem_map.2 fun _ _ => .of_pure _)

theorem compileOne_quiet (d : Design) (strict : Bool) (raw : Text) :
    Attempt.Quiet (d.compileOne strict raw) := by
  refine .bind (d.compile_quiet raw) fun compilation => ?_
  split
  · split
    · exact .bind (findingsOn_quiet (List.forall_mem_nil _)) fun _ =>
        .bind (.of_throw _) fun _ => .of_pure _
    · exact .of_pure _
  · exact .of_pure _

theorem cascadeKey_quiet (d : Design) (raw : Text) : Attempt.Quiet (d.cascadeKey raw) := by
  refine d.reading_quiet raw fun c => ?_
  split
  · exact .map (d.compile_quiet raw)
  · exact .of_pure none

end Design

/-! ## What is marked -/

/-- In every faithful session the attempt finds some classes invalid, also if it is interrupted,
    and no others. -/
def Attempt.Marks (d : Design) (attempt : Attempt α) (classes : List Text) : Prop :=
  ∀ s : Session, s.Faithful d → ∀ raw,
    (attempt.run.run s).2.isInvalid raw = true ↔ s.isInvalid raw = true ∨ raw ∈ classes

namespace Attempt.Marks

variable {classes classes' : List Text}

theorem of_quiet {attempt : Attempt α} (h : Attempt.Quiet attempt) :
    Attempt.Marks d attempt [] := by
  intro s _ raw
  simp [Session.isInvalid, h s]

theorem of_mark (raw : Text) :
    Attempt.Marks d (modifyThe Session (·.markInvalid raw)) [raw] := by
  intro s _ raw'
  rw [List.mem_singleton]
  exact Session.isInvalid_markInvalid

theorem congr {attempt : Attempt α} (h : Attempt.Marks d attempt classes)
    (hmem : ∀ raw, raw ∈ classes ↔ raw ∈ classes') : Attempt.Marks d attempt classes' := by
  intro s hs raw
  rw [h s hs raw, hmem]

theorem bind_ok {attempt : Attempt α} {value : α} {next : α → Attempt β}
    (hgives : Attempt.Gives d attempt (.ok value)) (h : Attempt.Marks d attempt classes)
    (hnext : Attempt.Marks d (next value) classes') :
    Attempt.Marks d (attempt >>= next) (classes ++ classes') := by
  intro s hs raw
  obtain ⟨s₁, hrun, hs₁⟩ := hgives s hs
  have hmarked := h s hs raw
  rw [hrun] at hmarked
  rw [ExceptT.run_bind, StateT.run_bind, hrun, List.mem_append, ← or_assoc, ← hmarked]
  exact hnext s₁ hs₁ raw

theorem bind_error {attempt : Attempt α} {i : Interruption} {next : α → Attempt β}
    (hgives : Attempt.Gives d attempt (.error i)) (h : Attempt.Marks d attempt classes) :
    Attempt.Marks d (attempt >>= next) classes := by
  intro s hs raw
  obtain ⟨s₁, hrun, -⟩ := hgives s hs
  have hmarked := h s hs raw
  rw [hrun] at hmarked
  rw [ExceptT.run_bind, StateT.run_bind, hrun]
  exact hmarked

/-- What follows an attempt, and finds nothing invalid, does not count. -/
theorem bind_quiet {attempt : Attempt α} {outcome : Except Interruption α} {next : α → Attempt β}
    (hgives : Attempt.Gives d attempt outcome) (h : Attempt.Marks d attempt classes)
    (hnext : ∀ value, Attempt.Quiet (next value)) : Attempt.Marks d (attempt >>= next) classes := by
  cases outcome with
  | error i => exact bind_error hgives h
  | ok value =>
    have hall := bind_ok hgives h (of_quiet (hnext value))
    rwa [List.append_nil] at hall

/-- A row of attempts marks what those up to the first interruption mark. -/
theorem mapM {f : Text → Attempt β} {g : Text → Except Interruption β} {marked : Text → List Text}
    (hgives : ∀ a, Attempt.Gives d (f a) (g a)) (h : ∀ a, Attempt.Marks d (f a) (marked a))
    (l : List Text) :
    Attempt.Marks d (l.mapM f) ((upTo (fun a => !(g a).isOk) l).flatMap marked) := by
  induction l with
  | nil => exact of_quiet (.of_pure [])
  | cons a l ih =>
    have ha := hgives a
    rw [List.mapM_cons, upTo]
    cases hg : g a with
    | error i =>
      rw [hg] at ha
      exact (bind_error ha (h a)).congr (by simp [Except.isOk, Except.toBool])
    | ok b =>
      rw [hg] at ha
      have hrest := bind_quiet (Attempt.Gives.mapM (l := l) fun a _ => hgives a) ih
        fun bs => .of_pure (b :: bs)
      exact bind_ok ha (h a) hrest

end Attempt.Marks

namespace Design

/-- Whether an error is found about a class. -/
def findsError (d : Design) (extra : List TextRule) (raw : Text) : Bool :=
  match d.findingsAbout extra raw with
  | .ok found => found.any (·.isError)
  | .error _ => false

/-- A class is marked as soon as an error is found about it. -/
theorem findAndMark_marks (d : Design) (extra : List TextRule) (raw : Text) :
    Attempt.Marks d (d.findAndMark (extra.map TextRule.rule) raw)
      ([raw].filter (d.findsError extra)) := by
  have hquiet : Attempt.Marks d (d.findingsOn (extra.map TextRule.rule) raw) [] :=
    .of_quiet (d.findingsOn_quiet_textRules extra raw)
  have hgives := d.findingsOn_gives extra raw
  rw [List.filter_singleton, findsError]
  cases hfound : d.findingsAbout extra raw with
  | error fault =>
    rw [hfound] at hgives
    exact hquiet.bind_error hgives
  | ok found =>
    rw [hfound] at hgives
    refine hquiet.bind_ok hgives ?_
    dsimp only
    cases found.any (·.isError) with
    | false => exact .of_quiet (.of_pure found)
    | true => exact (Attempt.Marks.of_mark raw).bind_quiet (.of_mark raw) fun _ => .of_pure found

/-- A review marks the classes on which it finds an error, up to the one at which it breaks off. -/
theorem review_marks (d : Design) (extra : List TextRule) (classes : List Text) :
    Attempt.Marks d (d.review (extra.map TextRule.rule) classes)
      ((upTo (d.stops false) classes).filter (d.findsError extra)) := by
  have hgives (raw : Text) := findAndMark_gives (d.findingsOn_gives extra raw)
  have h := Attempt.Marks.mapM hgives (d.findAndMark_marks extra) classes.eraseDups
  simp only [isOk_ofFault, isOk_findingsAbout, ← stops_false, flatMap_filter_singleton] at h
  refine .bind_quiet (.mapM fun raw _ => hgives raw) (h.congr fun raw => ?_) fun _ => .of_pure _
  rw [List.mem_filter, List.mem_filter, upTo_eraseDups, List.mem_eraseDups]

theorem reviewOrReject_marks (d : Design) (extra : List TextRule) (classes : List Text) :
    Attempt.Marks d (d.reviewOrReject (extra.map TextRule.rule) classes)
      ((upTo (d.stops false) classes).filter (d.findsError extra)) := by
  refine (d.review_marks extra classes).bind_quiet (d.review_gives extra classes) fun found => ?_
  split
  · exact .of_pure found
  · exact .of_throw _

/-! ## Requests -/

/-- The classes that a request finds invalid. -/
def classesMarked (d : Design) : Request → List Text
  | .review classes extra | .reviewOrReject classes extra =>
    (upTo (d.stops false) classes).filter (d.findsError extra)
  | .markInvalid raw => [raw]
  | _ => []

/-- A request marks what it says. -/
theorem answer_marks (d : Design) (request : Request) :
    Attempt.Marks d (d.answer request) (d.classesMarked request) := by
  cases request with
  | review classes extra =>
    exact (d.review_marks extra classes).bind_quiet (d.review_gives extra classes)
      fun _ => .of_pure _
  | reviewOrReject classes extra =>
    exact (d.reviewOrReject_marks extra classes).bind_quiet (d.reviewOrReject_gives extra classes)
      fun _ => .of_pure _
  | markInvalid raw =>
    exact (Attempt.Marks.of_mark raw).bind_quiet (.of_mark raw) fun _ => .of_pure _
  | readClass raw => exact .of_quiet (.map (.of_step (d.readClass_quiet raw)))
  | readSegment segment => exact .of_quiet (.map (.of_step (d.readSegment_quiet segment)))
  | compile raw | nodes raw => exact .of_quiet (.map (d.compile_quiet raw))
  | batch classes strict | css classes strict =>
    exact .of_quiet (.map (.mapM fun raw _ => d.compileOne_quiet strict raw))
  | order classes =>
    exact .of_quiet (.map (.map (.filterMapM (fun raw => .map (d.cascadeKey_quiet raw)) _)))
  | cascadeKey raw => exact .of_quiet (.map (d.cascadeKey_quiet raw))
  | findingsOn raw extra => exact .of_quiet (.map (d.findingsOn_quiet_textRules extra raw))
  | compileWith | registerUtility | registerVariant =>
    dsimp only [answer]
    split
    · exact .of_quiet (.of_pure _)
    · exact .of_quiet (.of_throw _)
  | reportVariant | classOffers | variantOffers => exact .of_quiet (.of_pure _)
  | segmentsRead | isInvalid | describe => exact .of_quiet fun _ => rfl

/-! ## Runs -/

/-- After any requests those classes are invalid that were so before, and those that one of the
    requests marks. -/
theorem sessionAfter_isInvalid (d : Design) (requests : List Request) {s : Session}
    (hs : s.Faithful d) (raw : Text) :
    (d.sessionAfter s requests).isInvalid raw = true ↔
      s.isInvalid raw = true ∨ raw ∈ requests.flatMap d.classesMarked := by
  induction requests generalizing s with
  | nil => simp [sessionAfter]
  | cons request requests ih =>
    have hone : (d.respond request s).2.isInvalid raw = true ↔
        s.isInvalid raw = true ∨ raw ∈ d.classesMarked request :=
      d.answer_marks request s hs raw
    rw [List.flatMap_cons, List.mem_append, ← or_assoc, ← hone]
    exact ih (d.respond_faithful request hs)

end Design

end UtilityCss
