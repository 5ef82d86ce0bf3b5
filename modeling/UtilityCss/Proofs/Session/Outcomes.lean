/-!
# Outcomes of rows of steps

A row of steps that may fail is taken step by step, up to the first failure.

* `mapM_eq_ok`, `filterMapM_eq_ok`: the row succeeds if every step does, with all their results;
* `mapM_eq_error`: it fails as its first failing step does;
* `findSomeM?_eq_ok_some`, `findSomeM?_eq_error`: a search finds what the first step finds that
  does not find nothing, or fails as this step does;
* `findSomeM?_ok`, `exists_findSomeM?_eq_ok`: a search in which no step fails succeeds, and finds
  what some step finds;
* `find?_eraseDups`: a search that cannot fail finds the same without repetitions;
* `map_eq_ok`, `bind_eq_ok`: two steps succeed if both do;
* `map_eq_error`, `bind_eq_error`: they fail as the first of them does that fails.
-/

namespace UtilityCss

variable {ε α β : Type}

theorem mapM_eq_ok {f : α → Except ε β} {l : List α} {r : List β} :
    l.mapM f = .ok r ↔ l.map f = r.map .ok := by
  induction l generalizing r with
  | nil => cases r <;> simp [pure, Except.pure]
  | cons a l ih =>
    rw [List.mapM_cons, List.map_cons]
    cases ha : f a with
    | error e => cases r <;> simp [bind, Except.bind]
    | ok b =>
      cases hl : l.mapM f with
      | error e =>
        have hno (r : List β) : ¬ l.map f = r.map .ok := by
          rw [← ih, hl]
          exact fun h => by cases h
        cases r <;> simp [bind, Except.bind, hno]
      | ok bs =>
        have hl := ih.1 hl
        cases r with
        | nil => simp [bind, Except.bind, pure, Except.pure]
        | cons b' r =>
          have hinj : bs.map (Except.ok (ε := ε)) = r.map .ok ↔ bs = r :=
            List.map_inj_right fun _ _ h => by cases h; rfl
          simp [bind, Except.bind, pure, Except.pure, hl, hinj]

theorem mapM_eq_error {f : α → Except ε β} {l : List α} {e : ε} :
    l.mapM f = .error e ↔ ∃ before a after, l = before ++ a :: after ∧
      (∀ b ∈ before, ∃ v, f b = .ok v) ∧ f a = .error e := by
  induction l with
  | nil => simp [pure, Except.pure]
  | cons a l ih =>
    rw [List.mapM_cons]
    constructor
    · intro h
      cases ha : f a with
      | error e' =>
        rw [ha] at h
        cases h
        exact ⟨[], a, l, rfl, by simp, ha⟩
      | ok b =>
        rw [ha] at h
        cases hl : l.mapM f with
        | error e' =>
          simp only [bind, Except.bind, hl] at h
          cases h
          obtain ⟨before, a', after, rfl, hbefore, ha'⟩ := ih.1 hl
          exact ⟨a :: before, a', after, rfl, List.forall_mem_cons.2 ⟨⟨b, ha⟩, hbefore⟩, ha'⟩
        | ok bs =>
          simp only [bind, Except.bind, hl] at h
          cases h
    · rintro ⟨_ | ⟨b, before⟩, a', after, h, hbefore, ha'⟩
      · cases h
        rw [ha']
        rfl
      · cases h
        obtain ⟨⟨v, hv⟩, hbefore⟩ := List.forall_mem_cons.1 hbefore
        rw [hv, ih.2 ⟨before, a', after, rfl, hbefore, ha'⟩]
        rfl

theorem filterMapM_eq_ok {f : α → Except ε (Option β)} {l : List α} {r : List β} :
    l.filterMapM f = .ok r ↔
      (∀ a ∈ l, ∃ b, f a = .ok b) ∧ r = l.filterMap fun a => (f a).toOption.join := by
  induction l generalizing r with
  | nil => simp [pure, Except.pure, eq_comm]
  | cons a l ih =>
    rw [List.filterMapM_cons, List.forall_mem_cons, List.filterMap_cons]
    cases ha : f a with
    | error e => simp [bind, Except.bind]
    | ok b =>
      cases b with
      | none => simpa [bind, Except.bind, Except.toOption] using ih
      | some b =>
        cases hl : l.filterMapM f with
        | error e =>
          have hno : ¬ ∀ a ∈ l, ∃ b, f a = .ok b := fun h => by
            have := ih.2 ⟨h, rfl⟩
            rw [hl] at this
            cases this
          simp [bind, Except.bind, hno]
        | ok bs =>
          obtain ⟨hall, rfl⟩ := ih.1 hl
          simpa [bind, Except.bind, pure, Except.pure, Except.toOption, eq_comm] using fun _ => hall

theorem findSomeM?_ok {f : α → Except ε (Option β)} {l : List α}
    (h : ∀ a ∈ l, ∃ b, f a = .ok b) : ∃ b, l.findSomeM? f = .ok b := by
  induction l with
  | nil => exact ⟨none, rfl⟩
  | cons a l ih =>
    obtain ⟨⟨b, hb⟩, h⟩ := List.forall_mem_cons.1 h
    rw [List.findSomeM?, hb]
    cases b with
    | none => exact ih h
    | some b => exact ⟨some b, rfl⟩

theorem map_eq_ok {x : Except ε α} {f : α → β} {b : β} :
    x.map f = .ok b ↔ ∃ a, x = .ok a ∧ f a = b := by
  cases x <;> simp [Except.map]

theorem isOk_map (x : Except ε α) (f : α → β) : (x.map f).isOk = x.isOk := by
  cases x <;> rfl

theorem bind_eq_ok {x : Except ε α} {f : α → Except ε β} {b : β} :
    x >>= f = .ok b ↔ ∃ a, x = .ok a ∧ f a = .ok b := by
  cases x <;> simp [bind, Except.bind]

theorem map_eq_error {x : Except ε α} {f : α → β} {e : ε} : x.map f = .error e ↔ x = .error e := by
  cases x <;> simp [Except.map]

theorem bind_eq_error {x : Except ε α} {f : α → Except ε β} {e : ε} :
    x >>= f = .error e ↔ x = .error e ∨ ∃ a, x = .ok a ∧ f a = .error e := by
  cases x <;> simp [bind, Except.bind]

theorem mapError_eq_error {ε' : Type} {x : Except ε α} {f : ε → ε'} {e' : ε'} :
    x.mapError f = .error e' ↔ ∃ e, x = .error e ∧ f e = e' := by
  cases x with
  | error e =>
    constructor
    · intro h
      exact ⟨e, rfl, Except.error.inj h⟩
    · rintro ⟨_, ⟨⟩, rfl⟩
      rfl
  | ok a =>
    constructor
    · intro h
      cases h
    · rintro ⟨_, h, _⟩
      cases h

theorem mapError_eq_ok {ε' : Type} {x : Except ε α} {f : ε → ε'} {a : α} :
    x.mapError f = .ok a ↔ x = .ok a := by
  cases x with
  | error e => exact ⟨nofun, nofun⟩
  | ok b => exact ⟨fun h => Except.ok.inj h ▸ rfl, fun h => Except.ok.inj h ▸ rfl⟩

theorem ite_error_left_eq_ok {p : Prop} [Decidable p] {e : ε} {x : Except ε α} {a : α} :
    (if p then .error e else x) = .ok a ↔ ¬ p ∧ x = .ok a := by
  by_cases h : p <;> simp [h]

/-- What is found is found by the first step that does not find nothing. -/
theorem findSomeM?_eq_ok_some {f : α → Except ε (Option β)} {l : List α} {b : β} :
    l.findSomeM? f = .ok (some b) ↔ ∃ before a after, l = before ++ a :: after ∧
      (∀ a' ∈ before, f a' = .ok none) ∧ f a = .ok (some b) := by
  induction l with
  | nil => simp [List.findSomeM?, pure, Except.pure]
  | cons a l ih =>
    rw [List.findSomeM?, bind_eq_ok]
    constructor
    · rintro ⟨found, hfound, h⟩
      cases found with
      | none =>
        obtain ⟨before, a', after, rfl, hbefore, ha'⟩ := ih.1 h
        exact ⟨a :: before, a', after, rfl, List.forall_mem_cons.2 ⟨hfound, hbefore⟩, ha'⟩
      | some b' =>
        cases h
        exact ⟨[], a, l, rfl, by simp, hfound⟩
    · rintro ⟨_ | ⟨a', before⟩, _, after, h, hbefore, ha⟩
      · cases h
        exact ⟨some b, ha, rfl⟩
      · cases h
        obtain ⟨ha', hbefore⟩ := List.forall_mem_cons.1 hbefore
        exact ⟨none, ha', ih.2 ⟨before, _, after, rfl, hbefore, ha⟩⟩

/-- A search fails as its first step does that does not find nothing. -/
theorem findSomeM?_eq_error {f : α → Except ε (Option β)} {l : List α} {e : ε} :
    l.findSomeM? f = .error e ↔ ∃ before a after, l = before ++ a :: after ∧
      (∀ a' ∈ before, f a' = .ok none) ∧ f a = .error e := by
  induction l with
  | nil => simp [List.findSomeM?, pure, Except.pure]
  | cons a l ih =>
    rw [List.findSomeM?, bind_eq_error]
    constructor
    · rintro (hfirst | ⟨found, hfound, h⟩)
      · exact ⟨[], a, l, rfl, by simp, hfirst⟩
      · cases found with
        | none =>
          obtain ⟨before, a', after, rfl, hbefore, ha'⟩ := ih.1 h
          exact ⟨a :: before, a', after, rfl, List.forall_mem_cons.2 ⟨hfound, hbefore⟩, ha'⟩
        | some b => cases h
    · rintro ⟨_ | ⟨a', before⟩, _, after, h, hbefore, ha⟩
      · cases h
        exact .inl ha
      · cases h
        obtain ⟨ha', hbefore⟩ := List.forall_mem_cons.1 hbefore
        exact .inr ⟨none, ha', ih.2 ⟨before, _, after, rfl, hbefore, ha⟩⟩

/-- A search in which no step fails finds what some step finds. -/
theorem exists_findSomeM?_eq_ok {f : α → Except ε (Option β)} {l : List α}
    (h : ∀ a ∈ l, ∃ b, f a = .ok b) :
    (∃ b, l.findSomeM? f = .ok (some b)) ↔ ∃ a ∈ l, ∃ b, f a = .ok (some b) := by
  constructor
  · rintro ⟨b, hb⟩
    obtain ⟨before, a, after, rfl, _, ha⟩ := findSomeM?_eq_ok_some.1 hb
    exact ⟨a, List.mem_append_right before (.head after), b, ha⟩
  · rintro ⟨a, ha, b, hf⟩
    induction l with
    | nil => cases ha
    | cons a' l ih =>
      obtain ⟨⟨found, hfound⟩, h⟩ := List.forall_mem_cons.1 h
      rw [List.findSomeM?, hfound]
      cases found with
      | some b' => exact ⟨b', rfl⟩
      | none =>
        rcases List.mem_cons.1 ha with rfl | ha
        · rw [hf] at hfound
          cases hfound
        · exact ih h ha

/-- The first of a list that satisfies `p` is also the first without repetitions. -/
theorem find?_eraseDups [BEq α] [LawfulBEq α] (p : α → Bool) :
    (l : List α) → l.eraseDups.find? p = l.find? p
  | [] => rfl
  | a :: l => by
    rw [List.eraseDups_cons, List.find?_cons, List.find?_cons]
    cases ha : p a with
    | true => rfl
    | false =>
      rw [find?_eraseDups p, List.find?_filter]
      -- What equals `a` was not looked for.
      have hp : (fun b => !b == a && p b) = p := by
        funext b
        by_cases hb : b = a
        · simp [hb, ha]
        · simp [hb]
      simp [hp]
termination_by l => l.length
decreasing_by exact Nat.lt_succ_of_le (List.length_filter_le _ _)

end UtilityCss
