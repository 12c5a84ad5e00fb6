import Relocation.Project
import Relocation.Report.Config
import Relocation.Report.Plan

/-!
# Analyses, plans and migrations as JSON
-/

namespace Relocation

/-- The kind of a failure in the report of a migration. -/
def Failure.stepKind : Failure → String
  | .move .. => "move_failed"
  | .edit .. => "partial_rewrite"
  | .verification .. => "verification_failure"
  | .corruption .. => "snapshot_corruption"
  | .transition .. => "invalid_transition"
  | .cancelled => "cancelled"
  | .io _ | .notFound _ => "io"
  | _ => "other"

def Failure.stepPath? : Failure → Option Path
  | .move source _ _ => some source
  | .edit path _ => some path
  | .corruption _ snapshot _ => snapshot
  | _ => none

def Failure.toStepJson (f : Failure) : Json :=
  .obj [("kind", .str f.stepKind), ("message", .str f.message),
    ("path", .ofOption Path.toJson f.stepPath?)]

def ProbeOutcome.toJson (o : ProbeOutcome) : Json :=
  .obj [("passed", .bool o.passed), ("timed_out", .bool o.timedOut), ("output", .str o.output)]

def MigrationState.toJson (s : MigrationState) : Json := .str s.name

def MigrationResult.toJson (r : MigrationResult) : Json :=
  .obj [("success", .bool r.success), ("state", r.state.toJson),
    ("files_moved", .nat r.filesMoved), ("files_rewritten", .nat r.filesEdited),
    ("errors", .list Failure.toStepJson r.errors),
    ("rollback_available", .bool r.snapshotPath.isSome),
    ("snapshot_path", .ofOption Path.toJson r.snapshotPath),
    ("verification", .ofOption ProbeOutcome.toJson r.verification),
    ("history", .list MigrationState.toJson r.history)]

def RestoreReport.toJson (r : RestoreReport) : Json :=
  .obj [("restored", .nat r.restored), ("removed", .nat r.removed),
    ("pruned_dirs", .nat r.prunedDirs),
    ("failures", .list (fun (p, message) => .arr [p.toJson, .str message]) r.failures)]

def MigrationPlan.toJson (p : MigrationPlan) : Json :=
  .obj [("moves", .obj [("entries", .list Move.toJson p.moves.moves)]), ("rules", p.rules.toJson),
    ("rewrite_targets", .list Path.toJson p.targets)]

namespace Analysis

def summary (a : Analysis) : UsageSummary := UsageSummary.ofRecords a.usage

def usageMembers (a : Analysis) : List (String × Json) :=
  [("usage", .list UsageRecord.toJson a.usage), ("summary", a.summary.toJson)]

/-- Counts, usage and diagnostics. -/
def toJson (a : Analysis) : Json :=
  .obj (("stats", a.graph.stats.toJson) :: a.usageMembers ++
    [("diagnostics", .list Diagnostic.toJson a.graph.diagnostics)])

/-- The whole graph and usage. -/
def toFullJson (a : Analysis) : Json := .obj (("graph", a.graph.toJson) :: a.usageMembers)

end Analysis

end Relocation
