import Mathlib.Data.List.Induction
import UtilityCss.Proofs.Session.Verdicts
import UtilityCss.Proofs.Table.Keys

/-!
# What a session has read and compiled

The memos of a session keep each text once, in the order in which they were asked for it first. So
the keys of a memo are the distinct texts of a record of all that was asked, repetitions and all
(`Session.Records`), and to say what a step does to the memos is to say what it adds to the record.

* `Design.segmentsOf`: the segments that reading a class comes upon;
* `Session.Records`: the invariant. Of every class that is kept the segments were read, so that
  reading it from memory leaves nothing out;
* `Step.Adds`, `Attempt.Adds`: what a step adds to the record of every session;
* `upTo`, `Attempt.Adds.mapM`, `Attempt.Adds.filterMapM`: a row of attempts adds what those up to
  the first interruption add.
-/

namespace UtilityCss

/-! ## Lists without repetitions -/

section Lists

variable {α β : Type}

/-- The beginning of a list up to the first element with a property, and with that element. -/
def upTo (p : α → Bool) : List α → List α
  | [] => []
  | a :: l => if p a then [a] else a :: upTo p l

theorem upTo_append (p : α → Bool) (s t : List α) :
    upTo p (s ++ t) = if s.any p then upTo p s else s ++ upTo p t := by
  induction s with
  | nil => rfl
  | cons a s ih =>
    rw [List.cons_append, upTo, upTo, ih, List.any_cons]
    cases p a with
    | true => rfl
    | false => cases s.any p <;> rfl

theorem upTo_eq_self {p : α → Bool} {s : List α} (h : s.any p = false) : upTo p s = s := by
  have happend := upTo_append p s []
  rwa [h, if_neg Bool.false_ne_true, upTo, List.append_nil] at happend

variable [BEq α] [LawfulBEq α] [BEq β] [LawfulBEq β]

theorem eraseDups_append_of_subset {s t : List α} (h : t ⊆ s) :
    (s ++ t).eraseDups = s.eraseDups := by
  have hnil : t.removeAll s = [] := by
    rw [List.removeAll, List.filter_eq_nil_iff]
    intro a ha
    simp [h ha]
  rw [List.eraseDups_append, hnil, List.eraseDups_nil, List.append_nil]

theorem eraseDups_filter (p : α → Bool) (s : List α) :
    (s.filter p).eraseDups = s.eraseDups.filter p := by
  induction s using List.reverseRecOn with
  | nil => rfl
  | append_singleton s a ih =>
    rw [List.filter_append, eraseDups_concat]
    cases hp : p a with
    | false =>
      rw [List.filter_cons_of_neg (by simp [hp]), List.filter_nil, List.append_nil, ih]
      split
      · rfl
      · rw [List.filter_append, List.filter_cons_of_neg (by simp [hp]), List.filter_nil,
          List.append_nil]
    | true =>
      rw [List.filter_cons_of_pos hp, List.filter_nil, eraseDups_concat, ih]
      simp only [List.mem_filter, hp, and_true]
      split
      · rfl
      · rw [List.filter_append, List.filter_cons_of_pos hp, List.filter_nil]

theorem mem_iff_of_eraseDups_eq {s s' : List α} (h : s.eraseDups = s'.eraseDups) {a : α} :
    a ∈ s ↔ a ∈ s' := by
  rw [← List.mem_eraseDups, h, List.mem_eraseDups]

theorem eraseDups_append_congr {s s' t t' : List α} (hs : s.eraseDups = s'.eraseDups)
    (ht : t.eraseDups = t'.eraseDups) : (s ++ t).eraseDups = (s' ++ t').eraseDups := by
  rw [List.eraseDups_append, List.eraseDups_append, List.removeAll, List.removeAll,
    eraseDups_filter, eraseDups_filter, hs, ht]
  simp only [List.elem_eq_mem, mem_iff_of_eraseDups_eq hs]

/-- What is put together from the elements of a list is the same, up to repetitions, if the
    elements are taken once each. -/
theorem eraseDups_flatMap (f : α → List β) (s : List α) :
    (s.eraseDups.flatMap f).eraseDups = (s.flatMap f).eraseDups := by
  induction s using List.reverseRecOn with
  | nil => rfl
  | append_singleton s a ih =>
    rw [eraseDups_concat, List.flatMap_append, List.flatMap_singleton]
    split
    · next ha => rw [ih, eraseDups_append_of_subset fun b hb => List.mem_flatMap.2 ⟨a, ha, hb⟩]
    · rw [List.flatMap_append, List.flatMap_singleton]
      exact eraseDups_append_congr ih rfl

theorem upTo_eraseDups (p : α → Bool) (s : List α) :
    upTo p s.eraseDups = (upTo p s).eraseDups := by
  have hany (s : List α) : s.eraseDups.any p = s.any p := by
    rw [Bool.eq_iff_iff, List.any_eq_true, List.any_eq_true]
    simp only [List.mem_eraseDups]
  induction s using List.reverseRecOn with
  | nil => rfl
  | append_singleton s a ih =>
    rw [upTo_append]
    cases hp : s.any p with
    | true =>
      -- The list is left before its last element.
      rw [if_pos rfl, ← ih, eraseDups_concat]
      split
      · rfl
      · rw [upTo_append, hany, hp, if_pos rfl]
    | false =>
      have hlast : upTo p [a] = [a] := by
        rw [upTo]
        split <;> rfl
      rw [if_neg Bool.false_ne_true, hlast, eraseDups_concat]
      split
      · exact upTo_eq_self ((hany s).trans hp)
      · rw [upTo_append, hany, hp, if_neg Bool.false_ne_true, hlast]

end Lists

/-! ## The record of a session -/

/-- The segments of a class that reading it comes upon: up to the first that is empty, and up to
    the first that is no variant, with that one. A class that does not fall into pieces has
    none. -/
def Design.segmentsOf (d : Design) (raw : Text) : List Text :=
  match Outline.ofText? d.settings raw with
  | none => []
  | some o => upTo (fun s => (d.variantOf? s).isNone) (o.segments.takeWhile (!·.isEmpty))

/-- The session has read `segments` and compiled `classes`, in this order and perhaps repeatedly.
    It keeps each once, and of every class that it keeps it has read the segments. -/
structure Session.Records (d : Design) (s : Session) (segments classes : List Text) : Prop where
  variants : s.variants.keys = segments.eraseDups
  compiled : s.compiled.keys = classes.eraseDups
  reached : ∀ raw, raw ∈ s.candidates.keys ∨ raw ∈ classes →
    ∀ segment ∈ d.segmentsOf raw, segment ∈ segments

theorem Session.start_records (d : Design) : Session.start.Records d [] [] :=
  ⟨rfl, rfl, by simp [start, OrderedMap.empty, OrderedMap.keys]⟩

namespace Session.Records

variable {d : Design} {s : Session} {segments segments' classes classes' : List Text}

/-- Only which elements there are counts, and in which order each comes first. -/
theorem congr (h : s.Records d segments classes) (hs : segments.eraseDups = segments'.eraseDups)
    (hc : classes.eraseDups = classes'.eraseDups) : s.Records d segments' classes' where
  variants := h.variants.trans hs
  compiled := h.compiled.trans hc
  reached raw hraw segment hsegment := by
    rw [← mem_iff_of_eraseDups_eq hc] at hraw
    rw [← mem_iff_of_eraseDups_eq hs]
    exact h.reached raw hraw segment hsegment

/-- What was read or compiled before is not recorded again. -/
theorem again (h : s.Records d segments classes) (hs : segments' ⊆ segments)
    (hc : classes' ⊆ classes) : s.Records d (segments ++ segments') (classes ++ classes') :=
  h.congr (eraseDups_append_of_subset hs).symm (eraseDups_append_of_subset hc).symm

theorem mem_of_variant (h : s.Records d segments classes) {segment : Text} {v : Option Variant}
    (hv : s.variants.get? segment = some v) : segment ∈ segments := by
  rw [← List.mem_eraseDups, ← h.variants]
  exact OrderedMap.mem_keys_of_get? hv

theorem mem_of_compiled (h : s.Records d segments classes) {raw : Text} {c : Compilation}
    (hc : s.compiled.get? raw = some c) : raw ∈ classes := by
  rw [← List.mem_eraseDups, ← h.compiled]
  exact OrderedMap.mem_keys_of_get? hc

theorem keep_variant (h : s.Records d segments classes) (segment : Text) (v : Option Variant) :
    (variantPlace.keep segment v s).Records d (segments ++ [segment]) classes where
  variants := OrderedMap.keys_insert_of_eraseDups h.variants segment v
  compiled := h.compiled
  reached raw hraw segment hsegment :=
    List.mem_append_left _ (h.reached raw hraw segment hsegment)

theorem keep_candidate (h : s.Records d segments classes) {raw : Text} (c : Option Candidate)
    (hraw : d.segmentsOf raw ⊆ segments) :
    (candidatePlace.keep raw c s).Records d segments classes where
  variants := h.variants
  compiled := h.compiled
  reached raw' hraw' := by
    have hkeys : (candidatePlace.keep raw c s).candidates.keys
        = if raw ∈ s.candidates.keys then s.candidates.keys else s.candidates.keys ++ [raw] :=
      OrderedMap.keys_insert s.candidates raw c
    rw [hkeys] at hraw'
    by_cases heq : raw' = raw
    · exact heq ▸ hraw
    · refine h.reached raw' (hraw'.imp_left fun hmem => ?_)
      split at hmem
      · exact hmem
      · simpa [heq] using hmem

theorem keep_compiled (h : s.Records d segments classes) {raw : Text} (c : Compilation)
    (hraw : d.segmentsOf raw ⊆ segments) :
    (compiledPlace.keep raw c s).Records d segments (classes ++ [raw]) where
  variants := h.variants
  compiled := OrderedMap.keys_insert_of_eraseDups h.compiled raw c
  reached raw' hraw' := by
    rcases hraw' with hmem | hmem
    · exact h.reached raw' (.inl hmem)
    · rcases List.mem_append.1 hmem with hmem | hmem
      · exact h.reached raw' (.inr hmem)
      · exact List.mem_singleton.1 hmem ▸ hraw

theorem markInvalid (h : s.Records d segments classes) (raw : Text) :
    (s.markInvalid raw).Records d segments classes := by
  unfold Session.markInvalid
  split
  · exact h
  · exact ⟨h.variants, h.compiled, h.reached⟩

end Session.Records

/-! ## Steps and attempts -/

variable {d : Design} {α β : Type}

/-- The step reads some segments: it adds them to the record of every faithful session. -/
def Step.Adds (d : Design) (step : Step α) (segments : List Text) : Prop :=
  ∀ (s : Session) (before classes : List Text), s.Faithful d → s.Records d before classes →
    (step.run s).2.Records d (before ++ segments) classes

/-- The attempt reads some segments and compiles some classes, also if it is interrupted. -/
def Attempt.Adds (d : Design) (attempt : Attempt α) (segments classes : List Text) : Prop :=
  ∀ (s : Session) (before before' : List Text), s.Faithful d → s.Records d before before' →
    (attempt.run.run s).2.Records d (before ++ segments) (before' ++ classes)

namespace Step.Adds

theorem of_pure (value : α) : Step.Adds d (pure value) [] :=
  fun _ _ _ _ hr => hr.again (List.nil_subset _) (List.nil_subset _) |>.congr rfl (by simp)

theorem bind {step : Step α} {value : α} {next : α → Step β} {segments segments' : List Text}
    (hgives : Step.Gives d step value) (h : Step.Adds d step segments)
    (hnext : Step.Adds d (next value) segments') :
    Step.Adds d (step >>= next) (segments ++ segments') := by
  intro s before classes hs hr
  obtain ⟨s₁, hrun, hs₁⟩ := hgives s hs
  have hr₁ := h s before classes hs hr
  rw [hrun] at hr₁
  rw [StateT.run_bind, hrun, ← List.append_assoc]
  exact hnext s₁ _ _ hs₁ hr₁

end Step.Adds

namespace Attempt.Adds

variable {segments segments' classes classes' : List Text}

theorem of_pure (value : α) : Attempt.Adds d (pure value) [] [] :=
  fun _ _ _ _ hr => hr.again (List.nil_subset _) (List.nil_subset _)

theorem of_throw (i : Interruption) : Attempt.Adds d (throw i : Attempt α) [] [] :=
  fun _ _ _ _ hr => hr.again (List.nil_subset _) (List.nil_subset _)

theorem of_step {step : Step α} (h : Step.Adds d step segments) :
    Attempt.Adds d (liftM step) segments [] := by
  intro s before before' hs hr
  have hstep := h s before before' hs hr
  rw [List.append_nil]
  change ((Except.ok <$> step).run s).2.Records d _ _
  rw [StateT.run_map]
  exact hstep

theorem of_mark (raw : Text) :
    Attempt.Adds d (modifyThe Session (·.markInvalid raw)) [] [] :=
  fun _ _ _ _ hr => (hr.markInvalid raw).again (List.nil_subset _) (List.nil_subset _)

theorem congr {attempt : Attempt α} (h : Attempt.Adds d attempt segments classes)
    (hs : segments.eraseDups = segments'.eraseDups) (hc : classes.eraseDups = classes'.eraseDups) :
    Attempt.Adds d attempt segments' classes' :=
  fun s before before' hf hr => (h s before before' hf hr).congr (eraseDups_append_congr rfl hs)
    (eraseDups_append_congr rfl hc)

theorem bind_ok {attempt : Attempt α} {value : α} {next : α → Attempt β}
    (hgives : Attempt.Gives d attempt (.ok value)) (h : Attempt.Adds d attempt segments classes)
    (hnext : Attempt.Adds d (next value) segments' classes') :
    Attempt.Adds d (attempt >>= next) (segments ++ segments') (classes ++ classes') := by
  intro s before before' hs hr
  obtain ⟨s₁, hrun, hs₁⟩ := hgives s hs
  have hr₁ := h s before before' hs hr
  rw [hrun] at hr₁
  rw [ExceptT.run_bind, StateT.run_bind, hrun, ← List.append_assoc, ← List.append_assoc]
  exact hnext s₁ _ _ hs₁ hr₁

/-- What comes again is not added twice. -/
theorem bind_again {attempt : Attempt α} {value : α} {next : α → Attempt β}
    (hgives : Attempt.Gives d attempt (.ok value)) (h : Attempt.Adds d attempt segments classes)
    (hnext : Attempt.Adds d (next value) segments' classes') (hs : segments' ⊆ segments)
    (hc : classes' ⊆ classes) : Attempt.Adds d (attempt >>= next) segments classes :=
  (bind_ok hgives h hnext).congr (eraseDups_append_of_subset hs) (eraseDups_append_of_subset hc)

theorem bind_error {attempt : Attempt α} {i : Interruption} {next : α → Attempt β}
    (hgives : Attempt.Gives d attempt (.error i)) (h : Attempt.Adds d attempt segments classes) :
    Attempt.Adds d (attempt >>= next) segments classes := by
  intro s before before' hs hr
  obtain ⟨s₁, hrun, hs₁⟩ := hgives s hs
  have hr₁ := h s before before' hs hr
  rw [hrun] at hr₁
  rw [ExceptT.run_bind, StateT.run_bind, hrun]
  exact hr₁

/-- An attempt that only reads, and what comes after it reads nothing else. -/
theorem bind_read {attempt : Attempt α} {value : α} {next : α → Attempt β}
    (hgives : Attempt.Gives d attempt (.ok value)) (h : Attempt.Adds d attempt segments [])
    (hnext : Attempt.Adds d (next value) segments' classes) (hs : segments' ⊆ segments) :
    Attempt.Adds d (attempt >>= next) segments classes :=
  (bind_ok hgives h hnext).congr (eraseDups_append_of_subset hs) rfl

theorem map {attempt : Attempt α} {outcome : Except Interruption α} {f : α → β}
    (hgives : Attempt.Gives d attempt outcome) (h : Attempt.Adds d attempt segments classes) :
    Attempt.Adds d (do return f (← attempt)) segments classes := by
  cases outcome with
  | error i => exact bind_error hgives h
  | ok value => exact bind_again hgives h (of_pure _) (List.nil_subset _) (List.nil_subset _)

/-- A row of attempts goes up to the first that is interrupted. -/
theorem mapM {f : Text → Attempt β} {g : Text → Except Interruption β}
    {seg cls : Text → List Text} (hgives : ∀ a, Attempt.Gives d (f a) (g a))
    (h : ∀ a, Attempt.Adds d (f a) (seg a) (cls a)) (l : List Text) :
    Attempt.Adds d (l.mapM f) ((upTo (fun a => !(g a).isOk) l).flatMap seg)
      ((upTo (fun a => !(g a).isOk) l).flatMap cls) := by
  induction l with
  | nil => exact of_pure []
  | cons a l ih =>
    have ha := hgives a
    rw [List.mapM_cons, upTo]
    cases hg : g a with
    | error i =>
      rw [hg] at ha
      exact (bind_error ha (h a)).congr (by simp [Except.isOk, Except.toBool])
        (by simp [Except.isOk, Except.toBool])
    | ok b =>
      rw [hg] at ha
      have hrest := Attempt.Gives.mapM (l := l) fun a _ => hgives a
      exact bind_ok ha (h a) (map hrest ih)

theorem filterMapM {f : Text → Attempt (Option β)} {g : Text → Except Interruption (Option β)}
    {seg cls : Text → List Text} (hgives : ∀ a, Attempt.Gives d (f a) (g a))
    (h : ∀ a, Attempt.Adds d (f a) (seg a) (cls a)) (l : List Text) :
    Attempt.Adds d (l.filterMapM f) ((upTo (fun a => !(g a).isOk) l).flatMap seg)
      ((upTo (fun a => !(g a).isOk) l).flatMap cls) := by
  induction l with
  | nil => exact of_pure []
  | cons a l ih =>
    have ha := hgives a
    rw [List.filterMapM_cons, upTo]
    cases hg : g a with
    | error i =>
      rw [hg] at ha
      exact (bind_error ha (h a)).congr (by simp [Except.isOk, Except.toBool])
        (by simp [Except.isOk, Except.toBool])
    | ok b =>
      rw [hg] at ha
      refine bind_ok ha (h a) ?_
      cases b with
      | none => exact ih
      | some b => exact map (Attempt.Gives.filterMapM fun a _ => hgives a) ih

end Attempt.Adds

end UtilityCss
