import Mathlib.Data.List.Induction
import UtilityCss.Memo
import UtilityCss.Proofs.Table.Keys

/-!
# Histories of memos

A memo is asked for one key after the other. Its computation may fail, and may read and change a
world of its own, so that it need not give the same twice. What is kept is told by the outcomes of
the *gets*, and by the *runs* of the computation, which are written down with their outcomes.

* `MemoAtWork.get_eq`: all that a get can do;
* `MemoAtWork.gets`: a row of gets, with their outcomes;
* `MemoAtWork.Remembers`: the invariant. What is kept are the values of the runs that succeeded, and
  its keys are those of the gets that succeeded, in the order of their first success;
* `MemoAtWork.remembers_gets`: so it is after every row of gets.
-/

namespace UtilityCss

/-! ## Outcomes -/

section Outcomes

variable {ε α : Type}

/-- The outcomes that are values, with their keys. -/
def successes (outcomes : List (Text × Except ε α)) : List (Text × α) :=
  outcomes.filterMap fun o => o.2.toOption.map fun value => (o.1, value)

/-- The outcomes that are failures, with their keys. -/
def failures (outcomes : List (Text × Except ε α)) : List (Text × Except ε α) :=
  outcomes.filter fun o => !o.2.isOk

variable (outcomes : List (Text × Except ε α)) (key : Text)

@[simp] theorem successes_concat_ok (value : α) :
    successes (outcomes ++ [(key, .ok value)]) = successes outcomes ++ [(key, value)] :=
  List.filterMap_append

@[simp] theorem successes_concat_error (e : ε) :
    successes (outcomes ++ [(key, .error e)]) = successes outcomes :=
  List.filterMap_append.trans (List.append_nil _)

@[simp] theorem failures_concat_ok (value : α) :
    failures (outcomes ++ [(key, .ok value)]) = failures outcomes :=
  (List.filter_append ..).trans (List.append_nil _)

@[simp] theorem failures_concat_error (e : ε) :
    failures (outcomes ++ [(key, .error e)]) = failures outcomes ++ [(key, .error e)] :=
  List.filter_append ..

end Outcomes

/-- A memo at work: what it keeps, the runs of its computation with their outcomes, and the world
    that the computation reads and changes. -/
structure MemoAtWork (ε α W : Type) where
  memo : Memo α
  runs : List (Text × Except ε α)
  world : W

namespace MemoAtWork

variable {ε α W : Type}

/-! ## Gets -/

/-- A memo that was not asked yet. -/
def start (world : W) : MemoAtWork ε α W := ⟨.empty, [], world⟩

/-- Where the memo lies. -/
def place : MemoPlace (MemoAtWork ε α W) α :=
  ⟨memo, fun memo s => { s with memo := memo }⟩

variable (f : Text → W → Except ε α × W)

/-- After the computation ran for a key. -/
def ran (s : MemoAtWork ε α W) (key : Text) : MemoAtWork ε α W :=
  { s with runs := s.runs ++ [(key, (f key s.world).1)], world := (f key s.world).2 }

/-- Runs the computation, and writes its outcome down. -/
def compute (key : Text) : ExceptT ε (StateM (MemoAtWork ε α W)) α :=
  ExceptT.mk fun s => ((f key s.world).1, s.ran f key)

/-- The outcome of asking for a key, and what comes of the memo. -/
def get (s : MemoAtWork ε α W) (key : Text) : Except ε α × MemoAtWork ε α W :=
  ((place : MemoPlace (MemoAtWork ε α W) α).fetch (compute f) key).run.run s

variable {f} {s : MemoAtWork ε α W} {key : Text}

theorem run_compute (f : Text → W → Except ε α × W) (s : MemoAtWork ε α W) (key : Text) :
    (compute f key).run.run s = ((f key s.world).1, s.ran f key) :=
  rfl

theorem run_get (f : Text → W → Except ε α × W) (s : MemoAtWork ε α W) (key : Text) :
    s.get f key = (match s.memo.get? key with
      | some value => pure value
      | none => do
        let value ← compute f key
        modifyThe (MemoAtWork ε α W) ((place : MemoPlace (MemoAtWork ε α W) α).keep key value)
        return value : ExceptT ε (StateM (MemoAtWork ε α W)) α).run.run s :=
  rfl

/-- A get finds the value that is kept, and nothing runs; or the computation runs and fails, and
    nothing is kept; or it succeeds, and its value is kept. -/
theorem get_eq (f : Text → W → Except ε α × W) (s : MemoAtWork ε α W) (key : Text) :
    s.get f key = match s.memo.get? key, (f key s.world).1 with
      | some value, _ => (.ok value, s)
      | none, .error e => (.error e, s.ran f key)
      | none, .ok value => (.ok value, { s.ran f key with memo := s.memo.insert key value }) := by
  rw [run_get]
  rcases s.memo.get? key with _ | value
  · rw [ExceptT.run_bind, StateT.run_bind, run_compute]
    rcases (f key s.world).1 with e | value
    · rfl
    · rfl
  · rfl

/-- The outcomes of asking for some keys one after the other, and what comes of the memo. -/
def gets (f : Text → W → Except ε α × W) (s : MemoAtWork ε α W) (keys : List Text) :
    List (Text × Except ε α) × MemoAtWork ε α W :=
  keys.foldl (fun r key => (r.1 ++ [(key, (r.2.get f key).1)], (r.2.get f key).2)) ([], s)

theorem gets_concat (keys : List Text) (key : Text) :
    s.gets f (keys ++ [key]) = ((s.gets f keys).1 ++ [(key, ((s.gets f keys).2.get f key).1)],
      ((s.gets f keys).2.get f key).2) :=
  List.foldl_append

theorem map_fst_gets (keys : List Text) : (s.gets f keys).1.map Prod.fst = keys := by
  induction keys using List.reverseRecOn with
  | nil => rfl
  | append_singleton keys key ih => rw [gets_concat, List.map_append, ih, List.map_singleton]

/-! ## What is remembered -/

/-- What a memo keeps after some outcomes. -/
structure Remembers (s : MemoAtWork ε α W) (outcomes : List (Text × Except ε α)) : Prop where
  keys : s.memo.keys = ((successes outcomes).map Prod.fst).eraseDups
  get? (key : Text) : s.memo.get? key = (successes outcomes).lookup key
  /-- No success for a key differs from the first. -/
  lookup_eq {key : Text} {value : α} :
    (key, .ok value) ∈ outcomes → (successes outcomes).lookup key = some value
  /-- The runs that succeeded are of different keys, and their values are kept. -/
  entries : s.memo.entries = successes s.runs
  failures : failures s.runs = failures outcomes

theorem remembers_start (world : W) : (start world : MemoAtWork ε α W).Remembers [] where
  keys := rfl
  get? _ := rfl
  lookup_eq := nofun
  entries := rfl
  failures := rfl

namespace Remembers

variable {outcomes : List (Text × Except ε α)} {value : α}

theorem lookup_concat (l : List (Text × α)) (key : Text) (value : α) (k : Text) :
    (l ++ [(key, value)]).lookup k
      = if k = key then some ((l.lookup key).getD value) else l.lookup k := by
  rw [List.lookup_append, OrderedMap.lookup_cons, List.lookup_nil]
  split_ifs with hk
  · subst hk
    rcases l.lookup k with _ | first
    · rfl
    · rfl
  · exact Option.or_none

/-- A success that does not differ from what is kept is as the first one of its key. -/
theorem lookup_eq_concat (h : s.Remembers outcomes)
    (hvalue : ((successes outcomes).lookup key).getD value = value) {k : Text} {v : α}
    (hmem : (k, .ok v) ∈ outcomes ++ [(key, .ok value)]) :
    (successes (outcomes ++ [(key, .ok value)])).lookup k = some v := by
  rw [successes_concat_ok, lookup_concat, hvalue]
  rcases List.mem_append.1 hmem with hmem | hmem
  · have hlookup := h.lookup_eq hmem
    split_ifs with hk
    · -- An earlier success of the same key was already as the first one.
      rw [← hk, hlookup] at hvalue
      rw [← hvalue]
      rfl
    · exact hlookup
  · obtain ⟨rfl, hv⟩ := Prod.ext_iff.1 (List.mem_singleton.1 hmem)
    cases hv
    exact if_pos rfl

/-- A value that is found is remembered as it was. -/
theorem found (h : s.Remembers outcomes) (hkept : s.memo.get? key = some value) :
    s.Remembers (outcomes ++ [(key, .ok value)]) := by
  have hlookup : (successes outcomes).lookup key = some value := by rw [← h.get?, hkept]
  have hmem : key ∈ (successes outcomes).map Prod.fst :=
    (OrderedMap.isSome_lookup_iff _ key).1 (by rw [hlookup, Option.isSome_some])
  refine ⟨?_, fun k => ?_, h.lookup_eq_concat (by rw [hlookup, Option.getD_some]), h.entries, ?_⟩
  · -- The key is there since it succeeded first, so that it comes as a repetition.
    rw [successes_concat_ok, List.map_append, List.map_singleton, eraseDups_concat, if_pos hmem,
      h.keys]
  · rw [successes_concat_ok, lookup_concat, hlookup, Option.getD_some, h.get?]
    split_ifs with hk
    · rw [hk, hlookup]
    · rfl
  · rw [failures_concat_ok, h.failures]

/-- A failure changes nothing that is remembered. -/
theorem failed (h : s.Remembers outcomes) {e : ε} (hrun : (f key s.world).1 = .error e) :
    (s.ran f key).Remembers (outcomes ++ [(key, .error e)]) := by
  refine ⟨?_, fun k => ?_, fun hmem => ?_, ?_, ?_⟩
  · rw [successes_concat_error]
    exact h.keys
  · rw [successes_concat_error]
    exact h.get? k
  · rw [successes_concat_error]
    rcases List.mem_append.1 hmem with hmem | hmem
    · exact h.lookup_eq hmem
    · cases List.mem_singleton.1 hmem
  · rw [ran, hrun, successes_concat_error]
    exact h.entries
  · rw [ran, hrun, failures_concat_error, failures_concat_error, h.failures]

/-- A value for a new key is remembered from then on. -/
theorem computed (h : s.Remembers outcomes) (hkept : s.memo.get? key = none)
    (hrun : (f key s.world).1 = .ok value) :
    ({ s.ran f key with memo := s.memo.insert key value } : MemoAtWork ε α W).Remembers
      (outcomes ++ [(key, .ok value)]) := by
  have hlookup : (successes outcomes).lookup key = none := by rw [← h.get?, hkept]
  have hnew : key ∉ s.memo.keys := by
    rw [← OrderedMap.contains_iff, OrderedMap.contains, hkept]
    exact Bool.false_ne_true
  refine ⟨?_, fun k => ?_, h.lookup_eq_concat (by rw [hlookup, Option.getD_none]), ?_, ?_⟩
  · rw [successes_concat_ok, List.map_append, List.map_singleton]
    exact OrderedMap.keys_insert_of_eraseDups h.keys key value
  · rw [successes_concat_ok, lookup_concat, hlookup, Option.getD_none, OrderedMap.get?_insert,
      h.get?]
  · rw [OrderedMap.entries_insert_of_not_mem hnew, ran, hrun, successes_concat_ok, h.entries]
  · rw [ran, hrun, failures_concat_ok, failures_concat_ok, h.failures]

theorem get (h : s.Remembers outcomes) (key : Text) :
    (s.get f key).2.Remembers (outcomes ++ [(key, (s.get f key).1)]) := by
  rw [get_eq]
  rcases hkept : s.memo.get? key with _ | value
  · rcases hrun : (f key s.world).1 with e | value
    · exact h.failed hrun
    · exact h.computed hkept hrun
  · exact h.found hkept

end Remembers

/-- After every row of gets, a memo remembers their outcomes. -/
theorem remembers_gets (f : Text → W → Except ε α × W) (world : W) (keys : List Text) :
    ((start world).gets f keys).2.Remembers ((start world).gets f keys).1 := by
  induction keys using List.reverseRecOn with
  | nil => exact remembers_start world
  | append_singleton keys key ih =>
    rw [gets_concat]
    exact ih.get key

/-! ## What the outcomes tell -/

theorem count_map_fst (outcomes : List (Text × Except ε α)) (key : Text) :
    (outcomes.map Prod.fst).count key = ((failures outcomes).map Prod.fst).count key
      + ((successes outcomes).map Prod.fst).count key := by
  induction outcomes using List.reverseRecOn with
  | nil => rfl
  | append_singleton outcomes o ih =>
    obtain ⟨k, e | value⟩ := o
    · rw [failures_concat_error, successes_concat_error, List.map_append, List.map_append,
        List.count_append, List.count_append, ih, Nat.add_right_comm]
    · rw [failures_concat_ok, successes_concat_ok, List.map_append, List.map_append,
        List.count_append, List.count_append, ih, Nat.add_assoc]
      rfl

/-- What the outcomes of some gets tell of a memo. A value may be of any kind, also one that stands
    for nothing. -/
structure ToldBy (f : Text → W → Except ε α × W) (s : MemoAtWork ε α W)
    (outcomes : List (Text × Except ε α)) : Prop where
  /-- The keys are those that succeeded, in the order of their first success. -/
  keys : s.memo.keys = ((successes outcomes).map Prod.fst).eraseDups
  /-- Each value stands at the place of its key, and is that of its first success. -/
  values : s.memo.values.map some = s.memo.keys.map fun key => (successes outcomes).lookup key
  size : s.memo.size = s.memo.keys.length
  /-- A get that succeeds gives the value that was computed first for its key. -/
  value {key : Text} {value : α} :
    (key, .ok value) ∈ outcomes → (successes s.runs).lookup key = some value
  /-- The computation succeeds once for each key that is kept, in the order of the keys. -/
  runs_ok : (successes s.runs).map Prod.fst = s.memo.keys
  /-- It fails as often as a get fails, and in the same way. -/
  runs_error : failures s.runs = failures outcomes
  count_runs (key : Text) :
    (s.runs.map Prod.fst).count key = ((failures outcomes).map Prod.fst).count key
      + if key ∈ (successes outcomes).map Prod.fst then 1 else 0
  /-- Asking once more for a key that succeeded runs nothing and changes nothing. -/
  next_found {key : Text} : key ∈ (successes outcomes).map Prod.fst → (s.get f key).2 = s
  /-- Asking for any other key runs the computation, and gives its outcome. -/
  next_runs {key : Text} : key ∉ (successes outcomes).map Prod.fst →
    (s.get f key).1 = (f key s.world).1 ∧
      (s.get f key).2.runs = s.runs ++ [(key, (s.get f key).1)]
  /-- A get that fails leaves all that is kept as it is. -/
  next_error {key : Text} {e : ε} : (s.get f key).1 = .error e → (s.get f key).2.memo = s.memo

theorem Remembers.isSome_get?_iff {outcomes : List (Text × Except ε α)} (h : s.Remembers outcomes)
    (key : Text) : (s.memo.get? key).isSome ↔ key ∈ (successes outcomes).map Prod.fst := by
  rw [h.get?, OrderedMap.isSome_lookup_iff]

theorem Remembers.toldBy {outcomes : List (Text × Except ε α)} (h : s.Remembers outcomes)
    (f : Text → W → Except ε α × W) : s.ToldBy f outcomes where
  keys := h.keys
  values := by
    rw [OrderedMap.values, OrderedMap.keys, List.map_map, List.map_map]
    refine List.map_congr_left fun e he => ?_
    rw [Function.comp_apply, Function.comp_apply, ← h.get?, OrderedMap.get?_of_mem_entries he]
  size := (List.length_map _).symm
  value hmem := by
    rw [← h.entries]
    exact (h.get? _).trans (h.lookup_eq hmem)
  runs_ok := congrArg (List.map Prod.fst) h.entries.symm
  runs_error := h.failures
  count_runs key := by
    have hkeys : (successes s.runs).map Prod.fst = s.memo.keys :=
      congrArg (List.map Prod.fst) h.entries.symm
    -- A key is kept once, so that it counts once at most among the runs that succeeded.
    have hnodup : s.memo.keys.Nodup := s.memo.nodup
    rw [count_map_fst, h.failures, hkeys, hnodup.count]
    simp only [h.keys, List.mem_eraseDups]
  next_found {key} hkey := by
    obtain ⟨value, hkept⟩ := Option.isSome_iff_exists.1 ((h.isSome_get?_iff key).2 hkey)
    rw [get_eq, hkept]
  next_runs {key} hkey := by
    rw [← h.isSome_get?_iff, Option.not_isSome_iff_eq_none] at hkey
    rw [get_eq, hkey]
    rcases hrun : (f key s.world).1 with e | value
    · exact ⟨rfl, by rw [ran, hrun]⟩
    · exact ⟨rfl, by rw [ran, hrun]⟩
  next_error {key} e he := by
    rw [get_eq] at he ⊢
    split at he
    · rfl
    · rfl
    · cases he

end MemoAtWork

end UtilityCss
