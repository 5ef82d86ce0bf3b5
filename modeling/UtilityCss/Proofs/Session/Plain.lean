import UtilityCss.Session.Request

/-!
# Answers without memory

What a session answers, told without the session. A design reads a segment as a variant
(`Design.variantOf?`), then a class as a candidate (`Design.candidateOf?`), then compiles the
candidate (`Design.compilationOf`); these three are functions of the design and the text alone.
Every other answer is put together from them: the findings about a class, batches, keys and
ranks.

* `Design.plainReply?`: the reply to a request that does not ask about the session itself. A
  broken utility table shows as a fault, a class that strict mode refuses as a rejection.

That a session with its memos gives these answers is proved in
`UtilityCss.Proofs.Session.Transparency`.
-/

namespace UtilityCss

namespace Design

/-! ## The three stages -/

/-- The variant that a segment is read as. -/
def variantOf? (d : Design) (segment : Text) : Option Variant :=
  Variant.ofText? d.variants d.settings segment

/-- The candidate that a class is read as. -/
def candidateOf? (d : Design) (raw : Text) : Option Candidate :=
  Candidate.ofText? d.settings d.utilities d.variantOf? raw

/-- What a class compiles to. -/
def compilationOf (d : Design) (raw : Text) : Except Fault Compilation :=
  match d.candidateOf? raw with
  | none => .ok (.refused .unparsable)
  | some candidate => candidate.compile d

/-! ## Findings -/

/-- What the rules of the library find about a class: that it cannot be read, or else that it
    gives no CSS, and that its mark of importance is in front. -/
def libraryFindings (d : Design) (raw : Text) : Except Fault (List Finding) :=
  match d.candidateOf? raw with
  | none => .ok [.unreadable raw]
  | some candidate =>
    (candidate.compile d).map fun compilation =>
      (compilation.refusal?.map fun reason => Finding.withoutCss raw reason.message).toList
        ++ if raw.head? = some '!' then [.leadingMark raw] else []

/-- All that is found about a class. -/
def findingsAbout (d : Design) (extra : List TextRule) (raw : Text) :
    Except Fault (List Finding) :=
  (d.libraryFindings raw).map (· ++ extra.flatMap (· raw))

/-- All that is found about some classes, each looked at once. -/
def findingsAboutAll (d : Design) (extra : List TextRule) (classes : List Text) :
    Except Fault (List Finding) :=
  (classes.eraseDups.mapM (d.findingsAbout extra)).map List.flatten

/-- The findings, unless there is an error among them. Else the class of the first error is
    rejected. -/
def acceptFindings (found : List Finding) : Except Interruption (List Finding) :=
  match found.filter (·.isError) with
  | [] => .ok found
  | first :: more =>
    .error (.rejected ⟨first.candidate, (first :: more).filter (·.candidate = first.candidate)⟩)

/-! ## Batches and order -/

/-- A class with its CSS, if it gives any. -/
def cssOf (d : Design) (strict : Bool) (raw : Text) : Except Interruption (Text × Option Text) :=
  match d.compilationOf raw with
  | .error fault => .error (.fault fault)
  | .ok (.produced node _) => .ok (raw, some node.print)
  | .ok (.refused _) =>
    if strict then
      match d.findingsAbout [] raw with
      | .error fault => .error (.fault fault)
      | .ok found => .error (.rejected ⟨raw, found⟩)
    else .ok (raw, none)

/-- The cascade key of a class, if it gives CSS. -/
def keyOf (d : Design) (raw : Text) : Except Fault (Option CascadeKey) :=
  match d.candidateOf? raw with
  | none => .ok none
  | some candidate =>
    (candidate.compile d).map fun compilation => compilation.source?.map (candidate.cascadeKey d)

/-- Each class with its rank in cascade order, if it gives CSS. -/
def rankAll (d : Design) (classes : List Text) : Except Fault (List (Text × Option Nat)) :=
  (classes.eraseDups.filterMapM fun raw => (d.keyOf raw).map (·.map (raw, ·))).map
    (ranked · classes)

/-! ## Requests -/

/-- An outcome that may be a fault, as the outcome of a step. -/
def ofFault {α : Type} (outcome : Except Fault α) : Except Interruption α :=
  outcome.mapError .fault

/-- The reply to a request, as far as it does not depend on what the session did before: only
    the list of segments, the set of invalid classes and the count of classes do. -/
def plainReply? (d : Design) : Request → Option (Except Interruption Reply)
  | .readClass raw => some (.ok (.candidate (d.candidateOf? raw)))
  | .readSegment segment => some (.ok (.variant ((d.variantOf? segment).map d.reportVariant)))
  | .reportVariant v => some (.ok (.variant (some (d.reportVariant v))))
  | .compile raw =>
    some (ofFault ((d.compilationOf raw).map fun c => .compilation (c.report d.utilities)))
  | .compileWith candidate settings =>
    some (ofFault ((candidate.compile { d with settings }).map fun c =>
      .compilation (c.report d.utilities)))
  | .nodes raw => some (ofFault ((d.compilationOf raw).map fun c => .nodes c.nodes))
  | .batch classes strict => some ((classes.mapM (d.cssOf strict)).map .batch)
  | .css classes strict =>
    some ((classes.mapM (d.cssOf strict)).map fun results => .css (results.map Prod.snd))
  | .order classes => some (ofFault ((d.rankAll classes).map .order))
  | .cascadeKey raw => some (ofFault ((d.keyOf raw).map .cascadeKey))
  | .findingsOn raw extra => some (ofFault ((d.findingsAbout extra raw).map .findings))
  | .review classes extra => some (ofFault ((d.findingsAboutAll extra classes).map .findings))
  | .reviewOrReject classes extra =>
    some ((ofFault (d.findingsAboutAll extra classes) >>= acceptFindings).map .findings)
  | .classOffers start =>
    some (.ok (.classOffers (d.classOffers.filter (·.name.startsWith start))))
  | .variantOffers start =>
    some (.ok (.variantOffers (d.variantOffers.filter (·.name.startsWith start))))
  | .markInvalid _ => some (.ok .done)
  | .registerUtility _ => some (.error (.utilityTable .frozen))
  | .registerVariant _ => some (.error (.variantTable .frozen))
  | .segmentsRead => none
  | .isInvalid _ => none
  | .describe => none

end Design

end UtilityCss
