import UtilityCss.Proofs.Session.Marks

/-!
# Reviews

A review explains the distinct classes of a list one after the other, each in the session that the
one before it left, and gives all findings in a row. Explaining a class may be interrupted, by a
fault or by an extra rule, and then the review breaks off: the classes behind it are not looked at.
An extra rule may do with the session what it likes, so that the findings on a class may hang on
the classes before it. They do not if the rule is *steady*: if it comes out the same whatever the
session remembers. A review that rejects does the same work, and decides only after all classes are
marked.

* `Design.Explains`: what explaining some classes finds, where it breaks off, and what it leaves,
  which is one thing only (`Explains.unique`);
* `Design.Reviewed`: what follows for the two kinds of review;
* `Design.review_outcome`: every review comes out in this way.
-/

namespace UtilityCss

/-- The session with a class marked as invalid, if there is an error among the findings on it. -/
def Session.note (s : Session) (raw : Text) (found : List Finding) : Session :=
  if found.any (·.isError) then s.markInvalid raw else s

theorem Session.isInvalid_note {s : Session} {raw raw' : Text} {found : List Finding} :
    (s.note raw found).isInvalid raw' = true ↔
      s.isInvalid raw' = true ∨ raw' = raw ∧ found.any (·.isError) = true := by
  rw [note]
  split
  · next herror => rw [isInvalid_markInvalid, herror, and_iff_left rfl]
  · next herror => rw [or_iff_left fun h => herror h.2]

theorem Session.Faithful.note {d : Design} {s : Session} (h : s.Faithful d) (raw : Text)
    (found : List Finding) : (s.note raw found).Faithful d := by
  rw [Session.note]
  split
  · exact h.markInvalid raw
  · exact h

/-! ## Attempts -/

namespace Attempt

variable {d : Design} {α β : Type} {attempt : Attempt α} {next : α → Attempt β} {s s' : Session}

theorem run_bind_ok {value : α} (h : attempt.run.run s = (.ok value, s')) :
    (attempt >>= next).run.run s = (next value).run.run s' := by
  rw [ExceptT.run_bind, StateT.run_bind, h]
  rfl

theorem run_bind_error {i : Interruption} (h : attempt.run.run s = (.error i, s')) :
    (attempt >>= next).run.run s = (.error i, s') := by
  rw [ExceptT.run_bind, StateT.run_bind, h]
  rfl

/-- What an attempt that gives an outcome comes out as in a faithful session. -/
theorem Gives.of_run {outcome outcome' : Except Interruption α}
    (h : Attempt.Gives d attempt outcome) (hs : s.Faithful d)
    (hrun : attempt.run.run s = (outcome', s')) :
    Attempt.Gives d attempt outcome' ∧ s'.Faithful d := by
  obtain ⟨s₁, hrun₁, hs₁⟩ := h s hs
  rw [hrun] at hrun₁
  cases hrun₁
  exact ⟨h, hs₁⟩

/-- The attempt comes out the same in every faithful session, and leaves a faithful one. -/
def Steady (d : Design) (attempt : Attempt α) : Prop :=
  ∃ outcome, Attempt.Gives d attempt outcome

namespace Steady

theorem bind (h : Steady d attempt) (hnext : ∀ value, Steady d (next value)) :
    Steady d (attempt >>= next) := by
  obtain ⟨i | value, hgives⟩ := h
  · exact ⟨_, hgives.bind_error⟩
  · obtain ⟨outcome, hgives'⟩ := hnext value
    exact ⟨outcome, hgives.bind_ok hgives'⟩

theorem mapM {f : α → Attempt β} {l : List α} (h : ∀ a ∈ l, Steady d (f a)) :
    Steady d (l.mapM f) := by
  induction l with
  | nil => exact ⟨_, .of_pure []⟩
  | cons a l ih =>
    obtain ⟨ha, hl⟩ := List.forall_mem_cons.1 h
    rw [List.mapM_cons]
    exact ha.bind fun _ => (ih hl).bind fun _ => ⟨_, .of_pure _⟩

end Steady

end Attempt

namespace Design

variable {d : Design} {extra : List FindingRule} {classes : List Text} {raw : Text}
  {found : List Finding} {explained : List (Text × List Finding)}
  {broken? : Option (Text × Interruption)} {s s' : Session} {i : Interruption}

/-- With steady rules, explaining a class is steady. -/
theorem findingsOn_steady (h : ∀ rule ∈ extra, Attempt.Steady d (rule d raw)) :
    Attempt.Steady d (d.findingsOn extra raw) := by
  refine .bind (.mapM (List.forall_mem_append.2 ⟨?_, h⟩)) fun _ => ⟨_, .of_pure _⟩
  simp only [libraryRules, List.forall_mem_cons]
  exact ⟨⟨_, d.findUnreadable_gives raw⟩, ⟨_, d.findWithoutCss_gives raw⟩,
    ⟨_, d.findLeadingMark_gives raw⟩, List.forall_mem_nil _⟩

/-! ## Explaining some classes -/

/-- Explaining some classes one after the other, from one session to another: the findings on each
    class, up to the first at which it is interrupted, and this class with the interruption. -/
inductive Explains (d : Design) (extra : List FindingRule) : Session → List Text →
    List (Text × List Finding) → Option (Text × Interruption) → Session → Prop
  | done {s : Session} : Explains d extra s [] [] none s
  | found {s s₁ s' : Session} {raw : Text} {rest : List Text} {found : List Finding}
      {explained : List (Text × List Finding)} {broken? : Option (Text × Interruption)} :
      (d.findingsOn extra raw).run.run s = (.ok found, s₁) →
      Explains d extra (s₁.note raw found) rest explained broken? s' →
      Explains d extra s (raw :: rest) ((raw, found) :: explained) broken? s'
  | breaksOff {s s' : Session} {raw : Text} {rest : List Text} {i : Interruption} :
      (d.findingsOn extra raw).run.run s = (.error i, s') →
      Explains d extra s (raw :: rest) [] (some (raw, i)) s'

theorem exists_explains (d : Design) (extra : List FindingRule) (classes : List Text)
    (s : Session) : ∃ explained broken? s', d.Explains extra s classes explained broken? s' := by
  induction classes generalizing s with
  | nil => exact ⟨[], none, s, .done⟩
  | cons raw classes ih =>
    rcases hrun : (d.findingsOn extra raw).run.run s with ⟨i | found, s₁⟩
    · exact ⟨[], some (raw, i), s₁, .breaksOff hrun⟩
    · obtain ⟨explained, broken?, s', h⟩ := ih (s₁.note raw found)
      exact ⟨(raw, found) :: explained, broken?, s', .found hrun h⟩

namespace Explains

/-- Explaining some classes comes out in one way only. -/
theorem unique {explained' : List (Text × List Finding)} {broken?' : Option (Text × Interruption)}
    {s'' : Session} (h : d.Explains extra s classes explained broken? s')
    (h' : d.Explains extra s classes explained' broken?' s'') :
    explained' = explained ∧ broken?' = broken? ∧ s'' = s' := by
  induction h generalizing explained' with
  | done =>
    cases h'
    exact ⟨rfl, rfl, rfl⟩
  | found hrun _ ih =>
    cases h' with
    | found hrun' hrest =>
      cases hrun.symm.trans hrun'
      obtain ⟨rfl, rfl, rfl⟩ := ih hrest
      exact ⟨rfl, rfl, rfl⟩
    | breaksOff hrun' => cases hrun.symm.trans hrun'
  | breaksOff hrun =>
    cases h' with
    | found hrun' => cases hrun.symm.trans hrun'
    | breaksOff hrun' =>
      cases hrun.symm.trans hrun'
      exact ⟨rfl, rfl, rfl⟩

/-- Without an interruption all classes are explained, in order. -/
theorem map_fst (h : d.Explains extra s classes explained none s') :
    explained.map Prod.fst = classes := by
  generalize hnone : none = broken? at h
  induction h with
  | done => rfl
  | found _ _ ih => rw [List.map_cons, ih hnone]
  | breaksOff => cases hnone

/-- The class of the interruption comes behind those that are explained. -/
theorem exists_rest (h : d.Explains extra s classes explained (some (raw, i)) s') :
    ∃ rest, classes = explained.map Prod.fst ++ raw :: rest := by
  generalize hsome : some (raw, i) = broken? at h
  induction h with
  | done => cases hsome
  | found _ _ ih =>
    obtain ⟨rest, hrest⟩ := ih hsome
    exact ⟨rest, by rw [hrest]; rfl⟩
  | @breaksOff _ _ _ rest =>
    cases hsome
    exact ⟨rest, rfl⟩

theorem nodup (h : d.Explains extra s classes explained broken? s') (hclasses : classes.Nodup) :
    (explained.map Prod.fst).Nodup := by
  match broken? with
  | none => rwa [h.map_fst]
  | some (raw, i) =>
    obtain ⟨rest, rfl⟩ := h.exists_rest
    exact (List.nodup_append.1 hclasses).1

/-- If the rules mark nothing, those classes are marked that have an error. -/
theorem isInvalid_iff (h : d.Explains extra s classes explained broken? s')
    (hquiet : ∀ rule ∈ extra, ∀ raw, Attempt.Quiet (rule d raw)) (raw : Text) :
    s'.isInvalid raw = true ↔ s.isInvalid raw = true ∨
      ∃ found, (raw, found) ∈ explained ∧ found.any (·.isError) = true := by
  have hkept {raw' : Text} {outcome : Except Interruption (List Finding)} {s s₁ : Session}
      (hrun : (d.findingsOn extra raw').run.run s = (outcome, s₁)) :
      s₁.isInvalid raw = s.isInvalid raw := by
    have hinvalid := findingsOn_quiet (fun rule hrule => hquiet rule hrule raw') s
    rw [hrun] at hinvalid
    rw [Session.isInvalid, hinvalid, Session.isInvalid]
  induction h with
  | done => simp
  | breaksOff hrun => simp [hkept hrun]
  | @found _ _ _ first _ found explained _ hrun _ ih =>
    refine ih.trans ?_
    rw [Session.isInvalid_note, hkept hrun, or_assoc]
    refine or_congr_right ?_
    constructor
    · rintro (⟨rfl, herror⟩ | ⟨found', hmem, herror⟩)
      · exact ⟨found, .head _, herror⟩
      · exact ⟨found', .tail _ hmem, herror⟩
    · rintro ⟨found', hmem, herror⟩
      rcases List.mem_cons.1 hmem with heq | hmem
      · cases heq
        exact .inl ⟨rfl, herror⟩
      · exact .inr ⟨found', hmem, herror⟩

/-- If the rules are steady, every class is explained as it is in every faithful session. -/
theorem gives (h : d.Explains extra s classes explained broken? s') (hs : s.Faithful d)
    (hsteady : ∀ rule ∈ extra, ∀ raw, Attempt.Steady d (rule d raw)) :
    s'.Faithful d ∧ (∀ p ∈ explained, Attempt.Gives d (d.findingsOn extra p.1) (.ok p.2)) ∧
      ∀ p, broken? = some p → Attempt.Gives d (d.findingsOn extra p.1) (.error p.2) := by
  have hgives {raw : Text} {outcome : Except Interruption (List Finding)} {s s₁ : Session}
      (hs : s.Faithful d) (hrun : (d.findingsOn extra raw).run.run s = (outcome, s₁)) :
      Attempt.Gives d (d.findingsOn extra raw) outcome ∧ s₁.Faithful d := by
    obtain ⟨_, hgives⟩ := findingsOn_steady fun rule hrule => hsteady rule hrule raw
    exact hgives.of_run hs hrun
  induction h with
  | done => exact ⟨hs, List.forall_mem_nil _, nofun⟩
  | breaksOff hrun =>
    obtain ⟨hbroken, hs'⟩ := hgives hs hrun
    exact ⟨hs', List.forall_mem_nil _, by rintro _ ⟨⟩; exact hbroken⟩
  | found hrun _ ih =>
    obtain ⟨hfirst, hs₁⟩ := hgives hs hrun
    obtain ⟨hs', hrest, hbroken⟩ := ih (hs₁.note _ _)
    exact ⟨hs', List.forall_mem_cons.2 ⟨hfirst, hrest⟩, hbroken⟩

/-! ## Reviewing -/

theorem run_findAndMark {s₁ : Session}
    (h : (d.findingsOn extra raw).run.run s = (.ok found, s₁)) :
    (d.findAndMark extra raw).run.run s = (.ok found, s₁.note raw found) := by
  rw [findAndMark, Attempt.run_bind_ok h, Session.note]
  split <;> rfl

theorem run_mapM (h : d.Explains extra s classes explained broken? s') :
    (classes.mapM (d.findAndMark extra)).run.run s
      = (broken?.elim (.ok (explained.map Prod.snd)) fun p => .error p.2, s') := by
  induction h with
  | done => rfl
  | breaksOff hrun =>
    rw [List.mapM_cons]
    exact Attempt.run_bind_error (Attempt.run_bind_error hrun)
  | @found _ _ _ _ _ _ _ broken? hrun _ ih =>
    rw [List.mapM_cons, Attempt.run_bind_ok (run_findAndMark hrun)]
    cases broken? with
    | none => exact Attempt.run_bind_ok ih
    | some p => exact Attempt.run_bind_error ih

/-- A review does what explaining the classes does. -/
theorem run_review (h : d.Explains extra s classes.eraseDups explained broken? s') :
    (d.review extra classes).run.run s
      = (broken?.elim (.ok (explained.flatMap Prod.snd)) fun p => .error p.2, s') := by
  have hrun := h.run_mapM
  cases broken? with
  | none => exact Attempt.run_bind_ok hrun
  | some p => exact Attempt.run_bind_error hrun

end Explains

/-- What two reviews of some classes come to in a session, the second of which rejects, if the
    distinct classes are explained so. -/
structure Reviewed (d : Design) (extra : List FindingRule) (classes : List Text) (s : Session)
    (explained : List (Text × List Finding)) (broken? : Option (Text × Interruption))
    (s' : Session) : Prop where
  /-- All distinct classes are explained, in order, unless the review breaks off. -/
  through : broken? = none → explained.map Prod.fst = classes.eraseDups
  /-- If it does, those before the class at which it breaks off are explained. -/
  breaksOff (raw : Text) (i : Interruption) : broken? = some (raw, i) →
    ∃ rest, classes.eraseDups = explained.map Prod.fst ++ raw :: rest
  /-- The review gives all findings in a row. -/
  review : broken? = none →
    (d.review extra classes).run.run s = (.ok (explained.flatMap Prod.snd), s')
  /-- Both reviews end as explaining the classes does. -/
  interrupted (raw : Text) (i : Interruption) : broken? = some (raw, i) →
    (d.review extra classes).run.run s = (.error i, s') ∧
      (d.reviewOrReject extra classes).run.run s = (.error i, s')
  /-- If the rules mark no class, those come to the invalid classes that are explained and have an
      error. -/
  isInvalid : (∀ rule ∈ extra, ∀ raw, Attempt.Quiet (rule d raw)) → ∀ raw,
    s'.isInvalid raw = true ↔ s.isInvalid raw = true ∨
      ∃ found, (raw, found) ∈ explained ∧ found.any (·.isError) = true
  /-- If the rules are steady, every class is explained as it is in every faithful session, and so
      is the one at which the review breaks off. -/
  steady : s.Faithful d → (∀ rule ∈ extra, ∀ raw, Attempt.Steady d (rule d raw)) →
    s'.Faithful d ∧ (∀ p ∈ explained, Attempt.Gives d (d.findingsOn extra p.1) (.ok p.2)) ∧
      ∀ p, broken? = some p → Attempt.Gives d (d.findingsOn extra p.1) (.error p.2)
  /-- The review that rejects leaves the same session. -/
  session : ((d.reviewOrReject extra classes).run.run s).2 = s'
  /-- Unless it is interrupted, it rejects the first class with an error, with all errors on it, if
      all findings are about the class for which they were made. -/
  rejects : broken? = none → (∀ p ∈ explained, ∀ f ∈ p.2, f.candidate = p.1) →
    ((d.reviewOrReject extra classes).run.run s).1
      = match explained.find? fun p => p.2.any (·.isError) with
        | none => .ok (explained.flatMap Prod.snd)
        | some p => .error (.rejected ⟨p.1, p.2.filter (·.isError)⟩)

theorem run_reviewOrReject {s₁ : Session}
    (h : (d.review extra classes).run.run s = (.ok found, s₁)) :
    (d.reviewOrReject extra classes).run.run s = (acceptFindings found, s₁) := by
  rw [reviewOrReject, Attempt.run_bind_ok h, acceptFindings]
  cases found.filter (·.isError) <;> rfl

/-- Of the findings on distinct classes, each about its class, the errors on the first class that
    has some are rejected. -/
theorem acceptFindings_eq (hnodup : (explained.map Prod.fst).Nodup)
    (hcandidate : ∀ p ∈ explained, ∀ f ∈ p.2, f.candidate = p.1) :
    acceptFindings (explained.flatMap Prod.snd) =
      match explained.find? fun p => p.2.any (·.isError) with
      | none => .ok (explained.flatMap Prod.snd)
      | some p => .error (.rejected ⟨p.1, p.2.filter (·.isError)⟩) := by
  have haccept := @acceptFindings_flatMap _ Prod.fst Prod.snd (fun p => p.2.filter (·.isError))
    explained (fun _ => rfl) (fun p hp f hf => hcandidate p hp f (List.mem_filter.1 hf).1) hnodup
  have hany : (fun p : Text × List Finding => !(p.2.filter (·.isError)).isEmpty)
      = fun p => p.2.any (·.isError) := by
    funext p
    rw [Bool.eq_iff_iff]
    simp
  rw [haccept, hany]
  cases explained.find? fun p => p.2.any (·.isError) <;> rfl

theorem Explains.reviewed (h : d.Explains extra s classes.eraseDups explained broken? s') :
    d.Reviewed extra classes s explained broken? s' where
  through := by
    rintro rfl
    exact h.map_fst
  breaksOff raw i := by
    rintro rfl
    exact h.exists_rest
  review := by
    rintro rfl
    exact h.run_review
  interrupted raw i := by
    rintro rfl
    have hreview : (d.review extra classes).run.run s = (.error i, s') := h.run_review
    exact ⟨hreview, Attempt.run_bind_error hreview⟩
  isInvalid := h.isInvalid_iff
  steady := h.gives
  session := by
    have hreview := h.run_review
    cases broken? with
    | none => rw [run_reviewOrReject hreview]
    | some p => rw [reviewOrReject, Attempt.run_bind_error hreview]
  rejects := by
    rintro rfl hcandidate
    rw [run_reviewOrReject h.run_review]
    exact acceptFindings_eq (h.nodup (nodup_eraseDups classes)) hcandidate

/-- *Reviews come out as explaining does*: in every session and with all extra rules, a review
    explains the distinct classes one after the other, up to the first at which it is interrupted.
    What it answers and which classes it marks follows from what explaining them finds. -/
theorem review_outcome (d : Design) (s : Session) (extra : List FindingRule)
    (classes : List Text) : ∃ explained broken? s',
      d.Explains extra s classes.eraseDups explained broken? s' ∧
        d.Reviewed extra classes s explained broken? s' := by
  obtain ⟨explained, broken?, s', h⟩ := exists_explains d extra classes.eraseDups s
  exact ⟨explained, broken?, s', h, h.reviewed⟩

/-- A rule that compiles the class for itself: both classes are explained as they are at any other
    time, and the one with errors is marked and rejected. -/
theorem review_outcome_of_compiling :
    let uncompiled : FindingRule := fun d raw => do
      if (← d.compile raw).nodes.isEmpty then return [⟨"css", .warning, "No CSS.", raw, none⟩]
      return []
    let classes : List Text := ["nope", "underline", "nope"]
    let found : List Finding := [.unreadable "nope", ⟨"css", .warning, "No CSS.", "nope", none⟩]
    let explained : List (Text × List Finding) := [("nope", found), ("underline", [])]
    (∀ rule ∈ [uncompiled], ∀ raw, Attempt.Quiet (rule tiny raw)) ∧
      (∀ rule ∈ [uncompiled], ∀ raw, Attempt.Steady tiny (rule tiny raw)) ∧
      ∃ s', tiny.Explains [uncompiled] .start classes.eraseDups explained none s' ∧
        (tiny.review [uncompiled] classes).run.run .start = (.ok found, s') ∧
        (tiny.reviewOrReject [uncompiled] classes).run.run .start
          = (.error (.rejected ⟨"nope", [.unreadable "nope"]⟩), s') ∧
        (∀ p ∈ explained, Attempt.Gives tiny (tiny.findingsOn [uncompiled] p.1) (.ok p.2)) ∧
        ∀ raw, s'.isInvalid raw = true ↔ raw = "nope".toList := by
  intro uncompiled classes found explained
  have hquiet : ∀ rule ∈ [uncompiled], ∀ raw, Attempt.Quiet (rule tiny raw) := by
    refine List.forall_mem_singleton.2 fun raw => .bind (tiny.compile_quiet raw) fun c => ?_
    split <;> exact .of_pure _
  have hsteady : ∀ rule ∈ [uncompiled], ∀ raw, Attempt.Steady tiny (rule tiny raw) := by
    refine List.forall_mem_singleton.2 fun raw => .bind ⟨_, tiny.compile_gives raw⟩ fun c => ?_
    split <;> exact ⟨_, .of_pure _⟩
  have hdistinct : classes.eraseDups = ["nope".toList, "underline".toList] := by decide
  obtain ⟨s₂, hexplained⟩ :
      ∃ s₂, tiny.Explains [uncompiled] .start classes.eraseDups explained none s₂ := by
    rw [hdistinct]
    exact ⟨_, .found rfl (.found rfl .done)⟩
  obtain ⟨explained', broken?, s', h, hreviewed⟩ :=
    review_outcome tiny .start [uncompiled] classes
  obtain ⟨rfl, rfl, rfl⟩ := hexplained.unique h
  have hcandidate : ∀ p ∈ explained, ∀ f ∈ p.2, f.candidate = p.1 := by
    refine List.forall_mem_cons.2 ⟨?_, List.forall_mem_singleton.2 (List.forall_mem_nil _)⟩
    exact List.forall_mem_cons.2 ⟨rfl, List.forall_mem_singleton.2 rfl⟩
  obtain ⟨-, hgives, -⟩ := hreviewed.steady (Session.start_faithful tiny) hsteady
  refine ⟨hquiet, hsteady, s', h, hreviewed.review rfl,
    Prod.ext (hreviewed.rejects rfl hcandidate) hreviewed.session, hgives, fun raw => ?_⟩
  rw [hreviewed.isInvalid hquiet raw]
  constructor
  · rintro (hstart | ⟨found', hmem, herror⟩)
    · cases hstart
    · rcases List.mem_cons.1 hmem with heq | hmem
      · exact congrArg Prod.fst heq
      · rw [(Prod.mk.inj (List.mem_singleton.1 hmem)).2] at herror
        cases herror
  · rintro rfl
    exact .inr ⟨found, .head _, rfl⟩

/-- Where a review parts from the findings on each class alone. It breaks off at a class whose
    template cannot be filled, or at which a rule raises, so that one with an error is not marked. A
    rule that asks which classes are invalid finds more behind a class with an error. A rule may
    mark classes itself. -/
theorem review_parts_from_findings :
    let classes : List Text := ["x-3", "nope"]
    let raises : FindingRule := fun _ raw => do
      if raw = "underline".toList then throw (.raised "lines" "No lines.")
      return []
    let asks : FindingRule := fun _ raw => do
      if (← getThe Session).isInvalid "nope" then return [⟨"asks", .warning, "Asks.", raw, none⟩]
      return []
    let marks : FindingRule := fun _ raw => do
      modifyThe Session (·.markInvalid raw)
      return []
    (twoHoles.replyAfter [] (.review classes []) = .error (.fault (.template (.missingValue 1))) ∧
      twoHoles.replyAfter [.review classes []] (.findingsOn "nope" [])
        = .ok (.findings [.unreadable "nope"]) ∧
      (Finding.unreadable "nope").isError = true ∧
      twoHoles.replyAfter [.review classes []] (.isInvalid "nope") = .ok (.truth false)) ∧
    (((tiny.review [raises] ["underline", "nope"]).run.run .start).1
        = .error (.raised "lines" "No lines.") ∧
      ((tiny.review [raises] ["underline", "nope"]).run.run .start).2.isInvalid "nope" = false) ∧
    (((tiny.review [asks] ["nope", "underline"]).run.run .start).1
        = .ok [.unreadable "nope", ⟨"asks", .warning, "Asks.", "underline", none⟩] ∧
      ((tiny.findingsOn [asks] "nope").run.run .start).1 = .ok [.unreadable "nope"] ∧
      ((tiny.findingsOn [asks] "underline").run.run .start).1 = .ok []) ∧
    ((tiny.review [marks] ["underline"]).run.run .start).1 = .ok [] ∧
      ((tiny.review [marks] ["underline"]).run.run .start).2.isInvalid "underline" = true :=
  ⟨⟨rfl, rfl, rfl, rfl⟩, ⟨rfl, rfl⟩, ⟨rfl, rfl, rfl⟩, rfl, rfl⟩

/-- The first class with an error is rejected, but both with errors are marked, and what was marked
    before stays so. -/
example :
    let extra : List TextRule :=
      [.onStart "hovered" .error "Hovered." "hover", .onStart "short" .info "Short." "n"]
    let classes : List Text := ["nope", "hover:underline", "nope"]
    tiny.replyAfter [.markInvalid "old"] (.reviewOrReject classes extra)
        = .error (.rejected ⟨"nope", [.unreadable "nope"]⟩) ∧
      (tiny.sessionAfter .start [.markInvalid "old", .reviewOrReject classes extra]).invalid
        = ["old", "nope", "hover:underline"].map String.toList :=
  ⟨rfl, by decide⟩

end Design

end UtilityCss
