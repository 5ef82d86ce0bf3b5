import UtilityCss.Bracket.Value
import UtilityCss.Proofs.Bracket.Closed

/-!
# Decoded values are closed

Decoding fails at a closer that closes nothing, at a quote that does not close, at a lone
backslash, and at a group that is open at the end. What is left are closed texts, and decoding
keeps them closed: an underscore, escaped or not, becomes a plain character, and everything else
with a meaning of its own stays where it is. One thing is needed of the text: that it has no
blank, as those that decoding makes are stripped off at the ends, and none of them may have been
taken along by a backslash.

* `Token.IsClosed`, `Token.isClosed_of_mem_tokenize`: every token of a text without blanks is
  closed on its own;
* `Decoding.IsClosed`: what was read so far is closed, in every group that stands open. One token
  more keeps this so (`Decoding.IsClosed.step`);
* `Text.closed_of_decode`: the decoded form of a text without blanks is closed.
-/

namespace UtilityCss

/-! ## Tokens -/

/-- A token is closed on its own, and so is its decoded form. -/
def Token.IsClosed : Token → Prop
  | run raw => Closed raw ∧ Closed (decodeRun raw)
  | quoted raw => Closed raw
  | opener _ => True
  | closer _ => True

namespace Token

variable {s : Text}

theorem isClosed_takeRun (hs : ∀ c ∈ s, isBlank c = false) : IsClosed (run (takeRun s).1) := by
  fun_induction takeRun s with
  | case1 => exact ⟨.nil, .nil⟩
  | case2 => exact ⟨.nil, .nil⟩
  | case3 c rest hc part after h ih =>
    obtain ⟨_, hs⟩ := List.forall_mem_cons.1 hs
    obtain ⟨hblank, hs⟩ := List.forall_mem_cons.1 hs
    obtain ⟨hraw, hdecoded⟩ := ih hs
    rw [h] at hraw hdecoded
    refine ⟨.escaped hblank hraw, ?_⟩
    rw [decodeRun]
    split
    · exact .plain rfl hdecoded
    · exact .escaped hblank hdecoded
  | case4 c rest hne hc part after h ih =>
    obtain ⟨_, hs⟩ := List.forall_mem_cons.1 hs
    obtain ⟨hraw, hdecoded⟩ := ih hs
    rw [h] at hraw hdecoded
    refine ⟨.plain hc hraw, ?_⟩
    rw [decodeRun]
    · split
      · exact .plain rfl hdecoded
      · exact .plain hc hdecoded
    · rintro c' rest' rfl
      cases hc
  | case5 => exact ⟨.nil, .nil⟩

theorem quotedRest_takeQuoted {q : Char} (hs : ∀ c ∈ s, isBlank c = false) {part after : Text}
    (h : takeQuoted q s = some (part, after)) : QuotedRest q part := by
  fun_induction takeQuoted q s generalizing part after with
  | case1 => cases h
  | case2 => cases h
  | case3 => cases h
  | case4 c rest _ part' after' hrest ih =>
    obtain ⟨_, hs⟩ := List.forall_mem_cons.1 hs
    obtain ⟨hblank, hs⟩ := List.forall_mem_cons.1 hs
    cases h
    exact .escaped hblank (ih hs hrest)
  | case5 =>
    cases h
    exact .close
  | case6 => cases h
  | case7 => cases h
  | case8 c rest _ hq hbackslash part' after' hrest ih =>
    obtain ⟨_, hs⟩ := List.forall_mem_cons.1 hs
    cases h
    exact .char hq hbackslash (ih hs hrest)

theorem isClosed_of_next? (hs : ∀ c ∈ s, isBlank c = false) {t : Token} {after : Text}
    (h : next? s = some (t, after)) : t.IsClosed := by
  cases s with
  | nil => cases h
  | cons c rest =>
    rw [next?] at h
    split at h
    · cases h
      trivial
    · cases h
      trivial
    · split at h
      · next hq =>
        split at h
        · cases h
        · next part _ hpart =>
          cases h
          have hclosed := Closed.quoted hq
            (quotedRest_takeQuoted (List.forall_mem_cons.1 hs).2 hpart) .nil
          rwa [List.append_nil] at hclosed
      · split at h
        · cases h
        · next hrun =>
          cases h
          have hclosed := isClosed_takeRun hs
          rwa [hrun] at hclosed

/-- The tokens of a text without blanks are closed on their own. -/
theorem isClosed_of_mem_tokenize (hs : ∀ c ∈ s, isBlank c = false) :
    ∀ t ∈ (tokenize s).1, t.IsClosed := by
  fun_induction tokenize s with
  | case1 => simp
  | case2 s t after h _ ts rest he ih =>
    have hafter : ∀ c ∈ after, isBlank c = false := fun c hc =>
      hs c (next?_append h ▸ List.mem_append_right _ hc)
    rw [he] at ih
    exact List.forall_mem_cons.2 ⟨isClosed_of_next? hs h, ih hafter⟩

end Token

/-! ## Reading -/

/-- What was read of a group is closed, decoded and as it stands. -/
structure GroupContent.IsClosed (c : GroupContent) : Prop where
  decoded : Closed c.decoded
  raw : Closed c.raw

namespace GroupContent.IsClosed

variable {c group : GroupContent} {raw : Text}

theorem empty : GroupContent.empty.IsClosed := ⟨.nil, .nil⟩

theorem addRun (h : c.IsClosed) (hraw : (Token.run raw).IsClosed) : (c.addRun raw).IsClosed :=
  ⟨h.decoded.append hraw.2, h.raw.append hraw.1⟩

theorem addQuoted (h : c.IsClosed) (hraw : (Token.quoted raw).IsClosed) :
    (c.addQuoted raw).IsClosed :=
  ⟨h.decoded.append hraw, h.raw.append hraw⟩

theorem addGroup (h : c.IsClosed) (b : Bracket) (hgroup : group.IsClosed) :
    (c.addGroup b group).IsClosed := by
  refine ⟨h.decoded.append ?_, h.raw.append (hgroup.raw.enclose b)⟩
  split
  · exact hgroup.raw.enclose b
  · exact hgroup.decoded.enclose b

end GroupContent.IsClosed

namespace Decoding

/-- What was read so far is closed, in every group that stands open. -/
structure IsClosed (r : Decoding) : Prop where
  outer : ∀ p ∈ r.outer, p.2.IsClosed
  content : r.content.IsClosed

variable {r r' : Decoding}

theorem IsClosed.start : start.IsClosed := ⟨by simp [Decoding.start], .empty⟩

theorem IsClosed.step (h : r.IsClosed) {t : Token} (ht : t.IsClosed) (hr : r.step? t = some r') :
    r'.IsClosed := by
  cases t with
  | run raw =>
    cases hr
    exact ⟨h.outer, h.content.addRun ht⟩
  | quoted raw =>
    cases hr
    exact ⟨h.outer, h.content.addQuoted ht⟩
  | opener b =>
    cases hr
    exact ⟨List.forall_mem_cons.2 ⟨h.content, h.outer⟩, .empty⟩
  | closer b =>
    obtain ⟨outer, content⟩ := r
    cases outer with
    | nil => cases hr
    | cons p outer =>
      obtain ⟨_, hr⟩ := Option.ite_none_right_eq_some.1 hr
      cases hr
      obtain ⟨haround, houter⟩ := List.forall_mem_cons.1 h.outer
      exact ⟨houter, haround.addGroup b h.content⟩

theorem IsClosed.finish (h : r.IsClosed) {rest last before value : Text} {ts : List Token}
    (hts : ∀ t ∈ ts, t.IsClosed) (hr : r.finish rest last before ts = .ok value) :
    Closed value := by
  induction ts generalizing r last before with
  | nil =>
    rw [Decoding.finish] at hr
    split at hr
    · cases hr
    · split at hr
      · cases hr
      · cases hr
        exact h.content.decoded
  | cons t ts ih =>
    obtain ⟨ht, hts⟩ := List.forall_mem_cons.1 hts
    rw [Decoding.finish] at hr
    split at hr
    · cases hr
    · next r' hstep => exact ih (h.step ht hstep) hts hr

end Decoding

/-- The decoded form of a text without blanks is closed. -/
theorem Text.closed_of_decode {s value : Text} (hs : ∀ c ∈ s, isBlank c = false)
    (h : s.decode = .ok value) : Closed value :=
  Decoding.IsClosed.start.finish (Token.isClosed_of_mem_tokenize hs) h

end UtilityCss
