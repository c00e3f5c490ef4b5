/-
# Scripts

A script states by rules what the analysis of each request does. The first rule
for the version of the request, and for its document if the rule names one, is
the one that counts. A request without a rule is answered at once with a snapshot
in which nothing is known.
-/

import CodeInsight.Query.Prepared
import CodeInsight.Reanalysis.Clock

namespace CodeInsight

/-- How an analysis ends. -/
inductive AnalysisOutcome where
  /-- It fails. -/
  | failure
  /-- It finds nothing in the text. -/
  | blank
  | prepared (analysis : PreparedAnalysis)
  /-- It breaks down and never answers. -/
  | breakdown

/-- What happens to requests of one version. -/
structure Rule where
  document : Option DocumentUri
  version : Version
  gated : Bool
  delay : Nat
  outcome : AnalysisOutcome

/-- Whether a rule is about a request. -/
def Rule.fits (r : Rule) (request : Request) : Bool :=
  r.version = request.version && r.document.all (· = request.document)

/-- The rules in order. -/
abbrev Script := List Rule

/-- What an analysis with this outcome makes of a request, for hosts with the given preferences. -/
def AnalysisOutcome.result (outcome : AnalysisOutcome) (request : Request)
    (preferences : Preferences) : Wait Snapshot :=
  let snapshotOf (analysis : PreparedAnalysis) : Wait Snapshot :=
    .over (some (analysis.snapshot request.document request.version preferences))
  match outcome with
  | .failure => .over none
  | .blank => snapshotOf (.blank request.text)
  | .prepared analysis => snapshotOf analysis
  | .breakdown => .pending

/-- The analysis that follows a script, for hosts with the given preferences. -/
def Script.analyzer (script : Script) (preferences : Preferences) : Analyzer Snapshot :=
  fun request =>
  match script.find? (·.fits request) with
  | some rule => ⟨rule.gated, rule.delay, rule.outcome.result request preferences⟩
  | none => ⟨false, 0, AnalysisOutcome.blank.result request preferences⟩

end CodeInsight
