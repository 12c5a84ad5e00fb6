/-!
# States of a migration
-/

namespace Relocation

inductive MigrationState where
  | idle
  | snapshotted
  | moved
  | edited
  | verified
  | committed
  | rolledBack
  | failed
  deriving DecidableEq, Repr

namespace MigrationState

/-- The tree may differ from the snapshot. -/
def isPending : MigrationState → Bool
  | .snapshotted | .moved | .edited | .verified => true
  | _ => false

/-- The state in a sentence. -/
def label : MigrationState → String
  | .idle => "idle"
  | .snapshotted => "snapshotted"
  | .moved => "moved"
  | .edited => "rewritten"
  | .verified => "verified"
  | .committed => "committed"
  | .rolledBack => "rolled back"
  | .failed => "failed"

/-- The state in a report. -/
def name : MigrationState → String
  | .rolledBack => "rolled_back"
  | s => s.label

end MigrationState

inductive MigrationStep where
  | snapshot
  | applyMoves
  | applyEdits
  | verify
  | commit
  | rollBack
  deriving DecidableEq, Repr

def MigrationStep.label : MigrationStep → String
  | .snapshot => "snapshot"
  | .applyMoves => "apply moves"
  | .applyEdits => "apply rewrites"
  | .verify => "verify"
  | .commit => "commit"
  | .rollBack => "roll back"

end Relocation
