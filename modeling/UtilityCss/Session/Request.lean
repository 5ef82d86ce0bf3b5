import UtilityCss.Completion
import UtilityCss.Session.Basic

/-!
# Requests

A session as a whole: a list of requests, answered one after the other.

* `Design.answer`: what one request does and is answered;
* `Design.run`: the answers to a list of requests, each with the counts that the
  session shows after it. An interrupted request does not end the run.
-/

namespace UtilityCss

/-- What a session can be asked. -/
inductive Request where
  | readClass (raw : Text)
  | readSegment (segment : Text)
  | reportVariant (variant : Variant)
  | compile (raw : Text)
  /-- Compiles a candidate with settings of its own; nothing is remembered. -/
  | compileWith (candidate : Candidate) (settings : Settings)
  | nodes (raw : Text)
  | batch (classes : List Text) (strict : Bool)
  | css (classes : List Text) (strict : Bool)
  | order (classes : List Text)
  | cascadeKey (raw : Text)
  | findingsOn (raw : Text) (extra : List TextRule)
  | review (classes : List Text) (extra : List TextRule)
  | reviewOrReject (classes : List Text) (extra : List TextRule)
  /-- The classes on offer that begin with a text. -/
  | classOffers (start : Text)
  /-- The variants on offer that begin with a text. -/
  | variantOffers (start : Text)
  | segmentsRead
  | markInvalid (raw : Text)
  | isInvalid (raw : Text)
  | describe
  | registerUtility (utility : Utility)
  | registerVariant (definition : VariantDefinition)

/-- A variant as an answer tells of it: how it is written, and its wrap. -/
structure VariantReport where
  variant : Variant
  written : Text
  wrap : Option Wrap
  deriving DecidableEq, Repr

/-- A compilation as an answer tells of it. -/
structure CompilationReport where
  nodes : List Node
  css : Text
  /-- The name and the place of the source of the nodes. -/
  source : Option (Text × Nat)
  refusal : Option Text

/-- What a request is answered. -/
inductive Reply where
  | candidate (candidate : Option Candidate)
  | variant (report : Option VariantReport)
  | compilation (report : CompilationReport)
  | nodes (nodes : List Node)
  | batch (results : List (Text × Option Text))
  | css (results : List (Option Text))
  | order (ranks : List (Text × Option Nat))
  | cascadeKey (key : Option CascadeKey)
  | findings (found : List Finding)
  | classOffers (entries : List ClassOffer)
  | variantOffers (entries : List VariantOffer)
  /-- How the segments that were read are written; none for those that are no variant. -/
  | segmentsRead (written : List (Option Text))
  | done
  | truth (holds : Bool)
  | text (text : Text)

namespace Compilation

/-- The report on a compilation. -/
def report (table : UtilityTable) (c : Compilation) : CompilationReport where
  nodes := c.nodes
  css := Node.printAll c.nodes
  source := c.source?.map fun source => (source.name, source.order table)
  refusal := c.refusal?.map Refusal.message

end Compilation

namespace Design

/-- The report on a variant. -/
def reportVariant (d : Design) (v : Variant) : VariantReport :=
  ⟨v, v.render, v.wrap? d.variants⟩

/-- What a request does, and what it is answered. A registration fails, since the tables
    of a design are frozen. -/
def answer (d : Design) : Request → Attempt Reply
  | .readClass raw => return .candidate (← d.readClass raw)
  | .readSegment segment => return .variant ((← d.readSegment segment).map d.reportVariant)
  | .reportVariant v => return .variant (some (d.reportVariant v))
  | .compile raw => return .compilation ((← d.compile raw).report d.utilities)
  | .compileWith candidate settings =>
    match candidate.compile { d with settings } with
    | .ok compilation => return .compilation (compilation.report d.utilities)
    | .error fault => throw (.fault fault)
  | .nodes raw => return .nodes (← d.compile raw).nodes
  | .batch classes strict => return .batch (← d.compileAll strict classes)
  | .css classes strict => return .css ((← d.compileAll strict classes).map Prod.snd)
  | .order classes => return .order (← d.classOrder classes)
  | .cascadeKey raw => return .cascadeKey (← d.cascadeKey raw)
  | .findingsOn raw extra => return .findings (← d.findingsOn (extra.map TextRule.rule) raw)
  | .review classes extra => return .findings (← d.review (extra.map TextRule.rule) classes)
  | .reviewOrReject classes extra =>
    return .findings (← d.reviewOrReject (extra.map TextRule.rule) classes)
  | .classOffers start => return .classOffers (d.classOffers.filter (·.name.startsWith start))
  | .variantOffers start => return .variantOffers (d.variantOffers.filter (·.name.startsWith start))
  | .segmentsRead =>
    return .segmentsRead ((← getThe Session).segmentsRead.map (·.map Variant.render))
  | .markInvalid raw => do
    modifyThe Session (·.markInvalid raw)
    return .done
  | .isInvalid raw => return .truth ((← getThe Session).isInvalid raw)
  | .describe => return .text (d.describe (← getThe Session))
  | .registerUtility u =>
    match d.utilities.register u with
    | .ok _ => return .done
    | .error e => throw (.utilityTable e)
  | .registerVariant definition =>
    match d.variants.register definition with
    | .ok _ => return .done
    | .error e => throw (.variantTable e)

/-- An answer, with the counts that a session shows after it. -/
structure Answer where
  reply : Except Interruption Reply
  compiled : Nat
  used : Nat

/-- The answer to one request, and the session after it. -/
def respond (d : Design) (request : Request) (s : Session) : Answer × Session :=
  let (reply, s') := (d.answer request).run.run s
  (⟨reply, s'.compiledCount, s'.segmentsRead.length⟩, s')

/-- The answers to some requests, one after the other. -/
def runFrom (d : Design) : Session → List Request → List Answer
  | _, [] => []
  | s, request :: requests =>
    let (answer, s') := d.respond request s
    answer :: d.runFrom s' requests

/-- The answers to some requests in a session of their own. -/
def run (d : Design) (requests : List Request) : List Answer :=
  d.runFrom .start requests

end Design

end UtilityCss
