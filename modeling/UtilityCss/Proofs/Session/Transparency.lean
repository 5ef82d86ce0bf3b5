import UtilityCss.Proofs.Session.Outcomes
import UtilityCss.Proofs.Session.Plain

/-!
# Sessions answer from memory what they would answer anew

A session keeps what it read and compiled, and three memos ask one another: compiling asks
for the candidate, and the candidate for its variants. The invariant of a session is that
everything it keeps is what the design itself gives (`Session.Faithful`). A step then comes out
as if nothing were kept, and keeps the invariant, also when it is interrupted midway.

* `Step.Gives`, `Attempt.Gives`: a step has a given outcome in every faithful session, and
  leaves a faithful one;
* `readSegment_gives`, `readClass_gives`, `compile_gives`: the three stages;
* `answer_gives`: every request is answered by its plain reply;
* `reply_transparent`: so is every request of a run, whatever came before it.
-/

namespace UtilityCss

/-! ## The invariant -/

/-- All that a session keeps is what the design gives. Nothing is asked of the classes that
    were found invalid. -/
structure Session.Faithful (d : Design) (s : Session) : Prop where
  variants : ∀ segment v, s.variants.get? segment = some v → v = d.variantOf? segment
  candidates : ∀ raw c, s.candidates.get? raw = some c → c = d.candidateOf? raw
  compiled : ∀ raw c, s.compiled.get? raw = some c → d.compilationOf raw = .ok c

theorem Session.start_faithful (d : Design) : Session.start.Faithful d where
  variants := by simp [start, OrderedMap.empty, OrderedMap.get?]
  candidates := by simp [start, OrderedMap.empty, OrderedMap.get?]
  compiled := by simp [start, OrderedMap.empty, OrderedMap.get?]

namespace Session.Faithful

variable {d : Design} {s : Session}

theorem keep_variant (h : s.Faithful d) (segment : Text) :
    (variantPlace.keep segment (d.variantOf? segment) s).Faithful d where
  variants k v hv := by
    simp only [MemoPlace.keep, variantPlace, OrderedMap.get?_insert] at hv
    split at hv
    · next hk => rw [hk, Option.some.inj hv]
    · exact h.variants k v hv
  candidates := h.candidates
  compiled := h.compiled

theorem keep_candidate (h : s.Faithful d) (raw : Text) :
    (candidatePlace.keep raw (d.candidateOf? raw) s).Faithful d where
  variants := h.variants
  candidates k c hc := by
    simp only [MemoPlace.keep, candidatePlace, OrderedMap.get?_insert] at hc
    split at hc
    · next hk => rw [hk, Option.some.inj hc]
    · exact h.candidates k c hc
  compiled := h.compiled

theorem keep_compiled (h : s.Faithful d) {raw : Text} {c : Compilation}
    (hc : d.compilationOf raw = .ok c) : (compiledPlace.keep raw c s).Faithful d where
  variants := h.variants
  candidates := h.candidates
  compiled k c' hc' := by
    simp only [MemoPlace.keep, compiledPlace, OrderedMap.get?_insert] at hc'
    split at hc'
    · next hk => rw [hk, hc, Option.some.inj hc']
    · exact h.compiled k c' hc'

theorem markInvalid (h : s.Faithful d) (raw : Text) : (s.markInvalid raw).Faithful d := by
  unfold Session.markInvalid
  split
  · exact h
  · exact ⟨h.variants, h.candidates, h.compiled⟩

end Session.Faithful

/-! ## Steps and attempts -/

variable {d : Design} {α β : Type}

/-- In a faithful session the step gives `value`, and the session stays faithful. -/
def Step.Gives (d : Design) (step : Step α) (value : α) : Prop :=
  ∀ s : Session, s.Faithful d → ∃ s', step.run s = (value, s') ∧ s'.Faithful d

/-- In a faithful session the attempt comes out as `outcome`, and the session stays faithful,
    also if the outcome is an interruption. -/
def Attempt.Gives (d : Design) (attempt : Attempt α) (outcome : Except Interruption α) : Prop :=
  ∀ s : Session, s.Faithful d → ∃ s', attempt.run.run s = (outcome, s') ∧ s'.Faithful d

namespace Step.Gives

theorem of_pure (value : α) : Step.Gives d (pure value) value :=
  fun s hs => ⟨s, rfl, hs⟩

theorem bind {step : Step α} {value : α} {next : α → Step β} {result : β}
    (h : Step.Gives d step value) (hnext : Step.Gives d (next value) result) :
    Step.Gives d (step >>= next) result := by
  intro s hs
  obtain ⟨s₁, hr, hs₁⟩ := h s hs
  obtain ⟨s₂, hr₂, hs₂⟩ := hnext s₁ hs₁
  refine ⟨s₂, ?_, hs₂⟩
  rw [StateT.run_bind, hr]
  exact hr₂

/-- Fetching is a look-up, and what it finds or computes is given. -/
theorem run_fetch {place : MemoPlace Session α} {compute : Text → Step α} {key : Text}
    {s : Session} :
    (place.fetch compute key : Step α).run s
      = (match (place.get s).get? key with
        | some value => pure value
        | none => do
          let value ← compute key
          modifyThe Session (place.keep key value)
          return value : Step α).run s :=
  rfl

/-- A memo whose entries are the values of `f` gives these values. -/
theorem fetch {place : MemoPlace Session α} {compute : Text → Step α} {f : Text → α} {key : Text}
    (hget : ∀ s : Session, s.Faithful d → ∀ v, (place.get s).get? key = some v → v = f key)
    (hkeep : ∀ s : Session, s.Faithful d → (place.keep key (f key) s).Faithful d)
    (h : Step.Gives d (compute key) (f key)) : Step.Gives d (place.fetch compute key) (f key) := by
  intro s hs
  rw [run_fetch]
  cases hk : (place.get s).get? key with
  | some v => exact ⟨s, by rw [hget s hs v hk]; rfl, hs⟩
  | none =>
    obtain ⟨s₁, hr, hs₁⟩ := h s hs
    refine ⟨place.keep key (f key) s₁, ?_, hkeep s₁ hs₁⟩
    simp only [StateT.run_bind, hr]
    rfl

end Step.Gives

namespace Attempt.Gives

theorem of_pure (value : α) : Attempt.Gives d (pure value) (.ok value) :=
  fun s hs => ⟨s, rfl, hs⟩

theorem of_throw (i : Interruption) : Attempt.Gives d (throw i : Attempt α) (.error i) :=
  fun s hs => ⟨s, rfl, hs⟩

theorem of_step {step : Step α} {value : α} (h : Step.Gives d step value) :
    Attempt.Gives d (liftM step) (.ok value) := by
  intro s hs
  obtain ⟨s', hr, hs'⟩ := h s hs
  refine ⟨s', ?_, hs'⟩
  change (Except.ok <$> step).run s = _
  rw [StateT.run_map, hr]
  rfl

/-- Marking a class as invalid changes nothing that the design gives. -/
theorem of_mark (raw : Text) :
    Attempt.Gives d (modifyThe Session (·.markInvalid raw)) (.ok ()) :=
  fun s hs => ⟨s.markInvalid raw, rfl, hs.markInvalid raw⟩

/-- An interruption passes over what comes after it. -/
theorem bind {attempt : Attempt α} {outcome : Except Interruption α} {next : α → Attempt β}
    {g : α → Except Interruption β} (h : Attempt.Gives d attempt outcome)
    (hnext : ∀ value, outcome = .ok value → Attempt.Gives d (next value) (g value)) :
    Attempt.Gives d (attempt >>= next) (outcome >>= g) := by
  intro s hs
  obtain ⟨s₁, hr, hs₁⟩ := h s hs
  rw [ExceptT.run_bind, StateT.run_bind, hr]
  cases outcome with
  | error i => exact ⟨s₁, rfl, hs₁⟩
  | ok value => exact hnext value rfl s₁ hs₁

theorem bind_ok {attempt : Attempt α} {value : α} {next : α → Attempt β}
    {outcome : Except Interruption β} (h : Attempt.Gives d attempt (.ok value))
    (hnext : Attempt.Gives d (next value) outcome) : Attempt.Gives d (attempt >>= next) outcome :=
  h.bind (g := fun _ => outcome) fun _ hv => by cases hv; exact hnext

theorem bind_error {attempt : Attempt α} {i : Interruption} {next : α → Attempt β}
    (h : Attempt.Gives d attempt (.error i)) : Attempt.Gives d (attempt >>= next) (.error i) :=
  h.bind (g := fun _ => .error i) fun _ hv => by cases hv

theorem map {attempt : Attempt α} {outcome : Except Interruption α} {f : α → β}
    (h : Attempt.Gives d attempt outcome) :
    Attempt.Gives d (do return f (← attempt)) (outcome.map f) := by
  cases outcome with
  | error i => exact h.bind (g := fun value => pure (f value)) fun _ _ => of_pure _
  | ok value => exact h.bind (g := fun value => pure (f value)) fun _ _ => of_pure _

theorem mapM {f : α → Attempt β} {g : α → Except Interruption β} {l : List α}
    (h : ∀ a ∈ l, Attempt.Gives d (f a) (g a)) : Attempt.Gives d (l.mapM f) (l.mapM g) := by
  induction l with
  | nil => exact of_pure []
  | cons a l ih =>
    rw [List.mapM_cons, List.mapM_cons]
    refine (h a List.mem_cons_self).bind fun b _ => ?_
    refine (ih fun a' ha' => h a' (List.mem_cons_of_mem _ ha')).bind fun bs _ => ?_
    exact of_pure (b :: bs)

theorem filterMapM {f : α → Attempt (Option β)} {g : α → Except Interruption (Option β)}
    {l : List α} (h : ∀ a ∈ l, Attempt.Gives d (f a) (g a)) :
    Attempt.Gives d (l.filterMapM f) (l.filterMapM g) := by
  induction l with
  | nil => exact of_pure []
  | cons a l ih =>
    rw [List.filterMapM_cons, List.filterMapM_cons]
    refine (h a List.mem_cons_self).bind fun b _ => ?_
    have ih := ih fun a' ha' => h a' (List.mem_cons_of_mem _ ha')
    cases b with
    | none => exact ih
    | some b => exact ih.bind fun bs _ => of_pure (b :: bs)

/-- Fetching as an attempt. -/
theorem run_fetch {place : MemoPlace Session α} {compute : Text → Attempt α} {key : Text}
    {s : Session} :
    (place.fetch compute key : Attempt α).run.run s
      = (match (place.get s).get? key with
        | some value => pure value
        | none => do
          let value ← compute key
          modifyThe Session (place.keep key value)
          return value : Attempt α).run.run s :=
  rfl

/-- A memo whose entries are results of `f` gives the outcomes of `f`. An interruption leaves
    no entry. -/
theorem fetch {place : MemoPlace Session α} {compute : Text → Attempt α}
    {f : Text → Except Interruption α} {key : Text}
    (hget : ∀ s : Session, s.Faithful d → ∀ v, (place.get s).get? key = some v → f key = .ok v)
    (hkeep : ∀ s : Session, s.Faithful d → ∀ v, f key = .ok v → (place.keep key v s).Faithful d)
    (h : Attempt.Gives d (compute key) (f key)) :
    Attempt.Gives d (place.fetch compute key) (f key) := by
  intro s hs
  rw [run_fetch]
  cases hk : (place.get s).get? key with
  | some v => exact ⟨s, by rw [hget s hs v hk]; rfl, hs⟩
  | none =>
    obtain ⟨s₁, hr, hs₁⟩ := h s hs
    simp only [ExceptT.run_bind, StateT.run_bind, hr]
    cases hv : f key with
    | error i => exact ⟨s₁, rfl, hs₁⟩
    | ok v => exact ⟨place.keep key v s₁, rfl, hkeep s₁ hs₁ v hv⟩

end Attempt.Gives

/-! ## Faults -/

namespace Design

theorem ofFault_map {outcome : Except Fault α} {f : α → β} :
    ofFault (outcome.map f) = (ofFault outcome).map f := by
  cases outcome <;> rfl

theorem mapM_ofFault (f : α → Except Fault β) (l : List α) :
    l.mapM (fun a => ofFault (f a)) = ofFault (l.mapM f) := by
  induction l with
  | nil => rfl
  | cons a l ih =>
    rw [List.mapM_cons, List.mapM_cons, ih]
    cases f a with
    | error fault => rfl
    | ok b => cases l.mapM f <;> rfl

theorem filterMapM_ofFault (f : α → Except Fault (Option β)) (l : List α) :
    l.filterMapM (fun a => ofFault (f a)) = ofFault (l.filterMapM f) := by
  induction l with
  | nil => rfl
  | cons a l ih =>
    rw [List.filterMapM_cons, List.filterMapM_cons, ih]
    cases f a with
    | error fault => rfl
    | ok b => cases b <;> cases l.filterMapM f <;> rfl

end Design

/-! ## The three stages -/

/-- Reading the variants of a class with a memo is reading them without. -/
theorem readVariants_gives {read : Text → Step (Option Variant)} {f : Text → Option Variant}
    (h : ∀ segment, Step.Gives d (read segment) (f segment)) (segments : List Text) :
    Step.Gives d (readVariants read segments)
      (Id.run (readVariants (fun segment => pure (f segment)) segments)) := by
  induction segments with
  | nil => exact .of_pure _
  | cons segment segments ih =>
    rw [readVariants, readVariants]
    by_cases he : segment.isEmpty = true
    · simp only [he, if_true]
      exact .of_pure none
    · simp only [he]
      refine (h segment).bind ?_
      cases hv : f segment with
      | none => exact .of_pure none
      | some v => exact ih.bind (.of_pure _)

theorem ofTextWith_gives {read : Text → Step (Option Variant)} {f : Text → Option Variant}
    (h : ∀ segment, Step.Gives d (read segment) (f segment)) (settings : Settings)
    (table : UtilityTable) (raw : Text) :
    Step.Gives d (Candidate.ofTextWith settings table read raw)
      (Candidate.ofText? settings table f raw) := by
  unfold Candidate.ofText? Candidate.ofTextWith
  cases Outline.ofText? settings raw with
  | none => exact .of_pure none
  | some outline => exact (readVariants_gives h outline.segments).bind (.of_pure _)

namespace Design

theorem readSegment_gives (d : Design) (segment : Text) :
    Step.Gives d (d.readSegment segment) (d.variantOf? segment) :=
  .fetch (fun _ hs => hs.variants segment) (fun _ hs => hs.keep_variant segment) (.of_pure _)

theorem readClass_gives (d : Design) (raw : Text) :
    Step.Gives d (d.readClass raw) (d.candidateOf? raw) :=
  .fetch (fun _ hs => hs.candidates raw) (fun _ hs => hs.keep_candidate raw)
    (ofTextWith_gives d.readSegment_gives d.settings d.utilities raw)

theorem compileNew_gives (d : Design) (raw : Text) :
    Attempt.Gives d (d.compileNew raw) (ofFault (d.compilationOf raw)) := by
  refine (Attempt.Gives.of_step (d.readClass_gives raw)).bind_ok ?_
  unfold compilationOf
  cases d.candidateOf? raw with
  | none => exact .of_pure _
  | some candidate =>
    simp only
    cases candidate.compile d with
    | error fault => exact .of_throw _
    | ok compilation => exact .of_pure _

theorem compile_gives (d : Design) (raw : Text) :
    Attempt.Gives d (d.compile raw) (ofFault (d.compilationOf raw)) := by
  refine .fetch (f := fun raw => ofFault (d.compilationOf raw)) (fun s hs c hc => ?_)
    (fun s hs c hc => ?_) (d.compileNew_gives raw)
  · rw [hs.compiled raw c hc]
    rfl
  · refine hs.keep_compiled ?_
    cases h : d.compilationOf raw with
    | error fault => rw [h] at hc; cases hc
    | ok c' => rw [h] at hc; cases hc; rfl

/-! ## Findings -/

theorem findUnreadable_gives (d : Design) (raw : Text) :
    Attempt.Gives d (d.findUnreadable raw)
      (.ok (if (d.candidateOf? raw).isSome then [] else [.unreadable raw])) := by
  refine (Attempt.Gives.of_step (d.readClass_gives raw)).bind_ok ?_
  split <;> exact .of_pure _

theorem findLeadingMark_gives (d : Design) (raw : Text) :
    Attempt.Gives d (d.findLeadingMark raw)
      (.ok (if raw.head? = some '!' ∧ (d.candidateOf? raw).isSome then [.leadingMark raw] else []))
    := by
  unfold findLeadingMark
  by_cases hm : raw.head? = some '!'
  · simp only [hm, ne_eq, not_true_eq_false, if_false, true_and]
    refine (Attempt.Gives.of_step (d.readClass_gives raw)).bind_ok ?_
    cases d.candidateOf? raw <;> exact .of_pure _
  · simp only [hm, ne_eq, not_false_eq_true, if_true, false_and, if_false]
    exact .of_pure []

theorem findWithoutCss_gives (d : Design) (raw : Text) :
    Attempt.Gives d (d.findWithoutCss raw)
      (match d.candidateOf? raw with
        | none => .ok []
        | some candidate => ofFault ((candidate.compile d).map fun compilation =>
          (compilation.refusal?.map fun r => Finding.withoutCss raw r.message).toList)) := by
  refine (Attempt.Gives.of_step (d.readClass_gives raw)).bind_ok ?_
  have hc := d.compile_gives raw
  unfold compilationOf at hc
  cases h : d.candidateOf? raw with
  | none => exact .of_pure []
  | some candidate =>
    rw [h] at hc
    dsimp only at hc ⊢
    cases hr : candidate.compile d with
    | error fault =>
      rw [hr] at hc
      exact hc.bind_error
    | ok compilation =>
      rw [hr] at hc
      refine hc.bind_ok ?_
      cases compilation <;> exact .of_pure _

/-- The rules of the library run before all extra ones. -/
theorem findingsOn_append (d : Design) (extra : List FindingRule) (raw : Text) :
    d.findingsOn extra raw = (do
      let library ← d.findingsOn [] raw
      let own ← extra.mapM fun rule => rule d raw
      return library ++ own.flatten) := by
  simp [findingsOn]

/-- The rules of the library, one after the other. -/
theorem findingsOn_nil (d : Design) (raw : Text) :
    d.findingsOn [] raw = (do
      let parse ← d.findUnreadable raw
      let resolves ← d.findWithoutCss raw
      let style ← d.findLeadingMark raw
      return parse ++ (resolves ++ style)) := by
  simp [findingsOn, libraryRules]

/-- Rules that look at the text alone add what they find to the findings of the library. -/
theorem findingsOn_textRules (d : Design) (extra : List TextRule) (raw : Text) :
    d.findingsOn (extra.map TextRule.rule) raw
      = (do return (← d.findingsOn [] raw) ++ extra.flatMap (· raw)) := by
  have hown : (extra.map TextRule.rule).mapM (fun rule => rule d raw)
      = (pure (extra.map (· raw)) : Attempt (List (List Finding))) := by
    rw [List.mapM_map]
    exact List.mapM_pure
  rw [findingsOn_append, hown]
  simp [List.flatMap]

theorem libraryFindings_gives (d : Design) (raw : Text) :
    Attempt.Gives d (d.findingsOn [] raw) (ofFault (d.libraryFindings raw)) := by
  rw [findingsOn_nil]
  refine (d.findUnreadable_gives raw).bind_ok ?_
  have hw := d.findWithoutCss_gives raw
  have hm := d.findLeadingMark_gives raw
  unfold libraryFindings
  cases h : d.candidateOf? raw with
  | none =>
    rw [h] at hw hm
    refine hw.bind_ok (hm.bind_ok ?_)
    simp only [Option.isSome_none, Bool.false_eq_true, if_false, and_false, List.append_nil]
    exact .of_pure _
  | some candidate =>
    rw [h] at hw hm
    dsimp only at hw ⊢
    cases hr : candidate.compile d with
    | error fault =>
      rw [hr] at hw
      exact hw.bind_error
    | ok compilation =>
      rw [hr] at hw
      refine hw.bind_ok (hm.bind_ok ?_)
      simp only [Option.isSome_some, if_true, and_true, List.nil_append]
      exact .of_pure _

theorem findingsOn_gives (d : Design) (extra : List TextRule) (raw : Text) :
    Attempt.Gives d (d.findingsOn (extra.map TextRule.rule) raw)
      (ofFault (d.findingsAbout extra raw)) := by
  rw [findingsOn_textRules, findingsAbout, ofFault_map]
  exact (d.libraryFindings_gives raw).map

/-- Marking a class does not change what is found about it. -/
theorem findAndMark_gives {extra : List FindingRule} {raw : Text}
    {outcome : Except Interruption (List Finding)}
    (h : Attempt.Gives d (d.findingsOn extra raw) outcome) :
    Attempt.Gives d (d.findAndMark extra raw) outcome := by
  cases outcome with
  | error i => exact h.bind_error
  | ok found =>
    refine h.bind_ok ?_
    split
    · exact (Attempt.Gives.of_mark raw).bind_ok (.of_pure found)
    · exact .of_pure found

theorem review_gives (d : Design) (extra : List TextRule) (classes : List Text) :
    Attempt.Gives d (d.review (extra.map TextRule.rule) classes)
      (ofFault (d.findingsAboutAll extra classes)) := by
  have h := Attempt.Gives.mapM (l := classes.eraseDups) fun raw _ =>
    findAndMark_gives (d.findingsOn_gives extra raw)
  rw [mapM_ofFault] at h
  rw [findingsAboutAll, ofFault_map]
  exact h.map

theorem reviewOrReject_gives (d : Design) (extra : List TextRule) (classes : List Text) :
    Attempt.Gives d (d.reviewOrReject (extra.map TextRule.rule) classes)
      (ofFault (d.findingsAboutAll extra classes) >>= acceptFindings) := by
  refine (d.review_gives extra classes).bind fun found _ => ?_
  unfold acceptFindings
  cases found.filter (·.isError) with
  | nil => exact .of_pure found
  | cons first more => exact .of_throw _

/-! ## Batches and order -/

theorem compileOne_gives (d : Design) (strict : Bool) (raw : Text) :
    Attempt.Gives d (d.compileOne strict raw) (d.cssOf strict raw) := by
  have h := d.compile_gives raw
  unfold cssOf
  cases hr : d.compilationOf raw with
  | error fault =>
    rw [hr] at h
    exact h.bind_error
  | ok compilation =>
    rw [hr] at h
    refine h.bind_ok ?_
    cases compilation with
    | produced node source =>
      dsimp only
      rw [← Node.printAll_singleton]
      exact .of_pure (raw, some (Node.printAll [node]))
    | refused reason =>
      cases strict with
      | false => exact .of_pure (raw, none)
      | true =>
        have hf := d.findingsOn_gives [] raw
        dsimp only
        rw [if_pos rfl]
        cases hr : d.findingsAbout [] raw with
        | error fault =>
          rw [hr] at hf
          exact hf.bind_error
        | ok found =>
          rw [hr] at hf
          exact hf.bind_ok ((Attempt.Gives.of_throw _).bind_error)

theorem compileAll_gives (d : Design) (strict : Bool) (classes : List Text) :
    Attempt.Gives d (d.compileAll strict classes) (classes.mapM (d.cssOf strict)) :=
  .mapM fun raw _ => d.compileOne_gives strict raw

theorem cascadeKey_gives (d : Design) (raw : Text) :
    Attempt.Gives d (d.cascadeKey raw) (ofFault (d.keyOf raw)) := by
  refine (Attempt.Gives.of_step (d.readClass_gives raw)).bind_ok ?_
  have hc := d.compile_gives raw
  unfold compilationOf at hc
  unfold keyOf
  cases h : d.candidateOf? raw with
  | none => exact .of_pure none
  | some candidate =>
    rw [h] at hc
    dsimp only at hc ⊢
    rw [ofFault_map]
    exact hc.map

theorem keyedClasses_gives (d : Design) (classes : List Text) :
    Attempt.Gives d (d.keyedClasses classes)
      (classes.eraseDups.filterMapM fun raw => (ofFault (d.keyOf raw)).map (·.map (raw, ·))) :=
  .filterMapM fun raw _ => (d.cascadeKey_gives raw).map

theorem classOrder_gives (d : Design) (classes : List Text) :
    Attempt.Gives d (d.classOrder classes) (ofFault (d.rankAll classes)) := by
  have h := d.keyedClasses_gives classes
  simp only [← ofFault_map] at h
  rw [filterMapM_ofFault] at h
  rw [rankAll, ofFault_map]
  exact h.map

/-! ## Requests -/

theorem answer_gives (d : Design) {request : Request} {reply : Except Interruption Reply}
    (h : d.plainReply? request = some reply) : Attempt.Gives d (d.answer request) reply := by
  cases request with
  | segmentsRead => simp [plainReply?] at h
  | isInvalid => simp [plainReply?] at h
  | describe => simp [plainReply?] at h
  | readClass raw =>
    cases h
    exact (Attempt.Gives.of_step (d.readClass_gives raw)).map
  | readSegment segment =>
    cases h
    exact (Attempt.Gives.of_step (d.readSegment_gives segment)).map
  | reportVariant v =>
    cases h
    exact .of_pure _
  | compile raw =>
    cases h
    rw [ofFault_map]
    exact (d.compile_gives raw).map
  | compileWith candidate settings =>
    cases h
    dsimp only [answer]
    cases candidate.compile { d with settings } with
    | error fault => exact .of_throw _
    | ok compilation => exact .of_pure _
  | nodes raw =>
    cases h
    rw [ofFault_map]
    exact (d.compile_gives raw).map
  | batch classes strict =>
    cases h
    exact (d.compileAll_gives strict classes).map
  | css classes strict =>
    cases h
    exact (d.compileAll_gives strict classes).map
  | order classes =>
    cases h
    rw [ofFault_map]
    exact (d.classOrder_gives classes).map
  | cascadeKey raw =>
    cases h
    rw [ofFault_map]
    exact (d.cascadeKey_gives raw).map
  | findingsOn raw extra =>
    cases h
    rw [ofFault_map]
    exact (d.findingsOn_gives extra raw).map
  | review classes extra =>
    cases h
    rw [ofFault_map]
    exact (d.review_gives extra classes).map
  | reviewOrReject classes extra =>
    cases h
    exact (d.reviewOrReject_gives extra classes).map
  | classOffers start =>
    cases h
    exact .of_pure _
  | variantOffers start =>
    cases h
    exact .of_pure _
  | markInvalid raw =>
    cases h
    exact (Attempt.Gives.of_mark raw).bind_ok (.of_pure _)
  | registerUtility u =>
    cases h
    dsimp only [answer]
    rw [UtilityTable.register_of_frozen d.utilities_frozen]
    exact .of_throw _
  | registerVariant definition =>
    cases h
    dsimp only [answer]
    rw [VariantTable.register_of_frozen d.variants_frozen]
    exact .of_throw _

/-- A request about the session itself changes nothing that the session keeps. -/
theorem answer_faithful (d : Design) (request : Request) {s : Session} (hs : s.Faithful d) :
    ((d.answer request).run.run s).2.Faithful d := by
  cases h : d.plainReply? request with
  | some reply =>
    obtain ⟨s', hr, hs'⟩ := d.answer_gives h s hs
    rw [hr]
    exact hs'
  | none => cases request <;> first | exact hs | simp [plainReply?] at h

/-! ## Runs -/

theorem respond_faithful (d : Design) (request : Request) {s : Session} (hs : s.Faithful d) :
    (d.respond request s).2.Faithful d :=
  d.answer_faithful request hs

theorem respond_reply (d : Design) {request : Request} {reply : Except Interruption Reply}
    (h : d.plainReply? request = some reply) {s : Session} (hs : s.Faithful d) :
    (d.respond request s).1.reply = reply := by
  obtain ⟨s', hr, _⟩ := d.answer_gives h s hs
  change ((d.answer request).run.run s).1 = reply
  rw [hr]

/-- The session after some requests. -/
def sessionAfter (d : Design) (s : Session) (requests : List Request) : Session :=
  requests.foldl (fun s request => (d.respond request s).2) s

theorem sessionAfter_faithful (d : Design) (requests : List Request) {s : Session}
    (hs : s.Faithful d) : (d.sessionAfter s requests).Faithful d := by
  induction requests generalizing s with
  | nil => exact hs
  | cons request requests ih => exact ih (d.respond_faithful request hs)

/-- The reply to a request in a session that answered some requests before. -/
def replyAfter (d : Design) (before : List Request) (request : Request) :
    Except Interruption Reply :=
  (d.respond request (d.sessionAfter .start before)).1.reply

/-- Whatever a session answered before, it gives the plain reply. -/
theorem replyAfter_eq (d : Design) (before : List Request) {request : Request}
    {reply : Except Interruption Reply} (h : d.plainReply? request = some reply) :
    d.replyAfter before request = reply :=
  d.respond_reply h (d.sessionAfter_faithful before (Session.start_faithful d))

theorem ofFault_map_eq_ok {α β : Type} {outcome : Except Fault α} {f : α → β} {result : β} :
    ofFault (outcome.map f) = .ok result ↔ ∃ value, outcome = .ok value ∧ f value = result := by
  rw [ofFault, mapError_eq_ok, map_eq_ok]

/-- The reply to a class is the report on its compilation. -/
theorem replyAfter_compile {d : Design} {before : List Request} {raw : Text}
    {report : CompilationReport} :
    d.replyAfter before (.compile raw) = .ok (.compilation report) ↔
      ∃ c, d.compilationOf raw = .ok c ∧ report = c.report d.utilities := by
  rw [d.replyAfter_eq before rfl, ofFault_map_eq_ok]
  simp [eq_comm]

theorem runFrom_cons (d : Design) (request : Request) (requests : List Request) (s : Session) :
    d.runFrom s (request :: requests)
      = (d.respond request s).1 :: d.runFrom (d.respond request s).2 requests :=
  rfl

theorem runFrom_append (d : Design) (before after : List Request) (s : Session) :
    d.runFrom s (before ++ after)
      = d.runFrom s before ++ d.runFrom (d.sessionAfter s before) after := by
  induction before generalizing s with
  | nil => rfl
  | cons request before ih =>
    rw [List.cons_append, runFrom_cons, runFrom_cons, ih]
    rfl

theorem length_runFrom (d : Design) (requests : List Request) (s : Session) :
    (d.runFrom s requests).length = requests.length := by
  induction requests generalizing s with
  | nil => rfl
  | cons request requests ih => rw [runFrom_cons, List.length_cons, List.length_cons, ih]

/-- *Memos are transparent*: in a run of any requests, whatever came before and however it
    ended, a request that does not ask about the session itself is answered by its plain reply,
    as it is in a session that did nothing yet. -/
theorem reply_transparent (d : Design) (before after : List Request) {request : Request}
    {reply : Except Interruption Reply} (h : d.plainReply? request = some reply) :
    ((d.run (before ++ request :: after))[before.length]?).map (·.reply) = some reply
      ∧ (d.respond request .start).1.reply = reply := by
  have hs := Session.start_faithful d
  refine ⟨?_, d.respond_reply h hs⟩
  have hlength := d.length_runFrom before .start
  rw [run, runFrom_append, List.getElem?_append_right (Nat.le_of_eq hlength), hlength,
    Nat.sub_self, runFrom_cons, List.getElem?_cons_zero, Option.map_some,
    d.respond_reply h (d.sessionAfter_faithful before hs)]

/-- A design with one utility and one variant. -/
def tiny : Design where
  theme := ⟨.empty⟩
  utilities := .ofUtilities [.static "underline" [("text-decoration-line", "underline")]]
  variants := ⟨[⟨"hover", .fixed (.selector "&:hover") true⟩], true⟩
  settings := .stock
  utilities_frozen := rfl
  variants_frozen := rfl

/-- The classes are marked and compiled before, in a step that ends in a rejection. -/
theorem reply_transparent_after_rejection :
    let classes : List Text := ["hover:underline", "nope"]
    let before : List Request := [.markInvalid "hover:underline", .batch classes true]
    let reply : Except Interruption Reply :=
      .ok (.css [some ".hover\\:underline:hover\x7btext-decoration-line:underline\x7d", none])
    tiny.plainReply? (.css classes false) = some reply
      ∧ ((tiny.run (before ++ .css classes false :: []))[2]?).map (·.reply) = some reply
      ∧ (tiny.respond (.css classes false) .start).1.reply = reply :=
  ⟨rfl, reply_transparent tiny _ [] rfl⟩

end Design

end UtilityCss
