import Relocation.Config.Compiler
import Relocation.Config.Reader
import Relocation.Migration.Basic
import Relocation.Scan

/-!
# Projects

A project is a root directory with its configuration. It can be analysed, planned and migrated, and a
snapshot of it restored.
-/

namespace Relocation

structure Project where
  /-- Absolute, without links. -/
  root : Path
  config : Config
  deriving DecidableEq, Repr

structure Analysis where
  graph : Graph
  usage : List UsageRecord

/-- Moves, the rules that they imply, and the modules whose text changes. -/
structure MigrationPlan where
  moves : MovePlan
  rules : Rules
  targets : List Path
  deriving DecidableEq, Repr

/-- Reads a configuration file. One that is missing stands for the defaults. -/
def Config.load (d : Disk) (path : Path) : Except Failure Config :=
  match d.readText path with
  | .ok text =>
    match Config.parse? text with
    | some c => .ok c
    | none => .error (.config path)
  | .error .notFound => .ok {}
  | .error e => .error (.io e)

/-- The aliases in force for a root. -/
def Config.aliasesAt (c : Config) (d : Disk) (root : Path) : List Alias :=
  c.aliasesWith (match d.readText (root.join Compiler.fileName) with
    | .ok text => Compiler.aliasesOf text
    | .error _ => [])

namespace Project

/-- Uses a given configuration; `root` replaces the one that it names. -/
def withConfig (d : Disk) (root : Path) (config : Config) : Except Failure Project :=
  if !d.isDir root then .error (.notFound root)
  else
    match d.canonical root with
    | .ok root => .ok { root, config }
    | .error e => .error (.io e)

/-- Opens the project whose configuration file lies in a directory. -/
def openAt (d : Disk) (dir : Path) : Except Failure Project := do
  if !d.isDir dir then .error (.notFound dir)
  else
    let config ← Config.load d (dir.join Config.fileName)
    withConfig d (config.rootIn dir) config

def scan (p : Project) (d : Disk) : Except Failure SourceTree := Relocation.scan d p.root p.config

def graphOf (c : Config) (aliases : List Alias) (tree : SourceTree) : Graph :=
  Graph.build tree (Graph.extractAll c.backend.extract tree.modules) aliases c.extensions

def analyze (p : Project) (d : Disk) : Except Failure Analysis := do
  match Scope.ofPatterns p.config.scope with
  | .error e => .error (.pattern e)
  | .ok scope =>
    let tree ← p.scan d
    let graph := graphOf p.config (p.config.aliasesAt d tree.root) tree
    .ok { graph, usage := graph.usage scope p.config.thresholds }

/-- The category of a module; none if it is out of scope. -/
def categoryIn (usage : List UsageRecord) (path : Path) : Option Category :=
  (usage.find? (·.path.same path)).map (·.category)

def plan (p : Project) (a : Analysis) : Except Failure MigrationPlan := do
  match Grouping.ofRules p.config.groups with
  | .error e => .error (.pattern e)
  | .ok grouping =>
    let candidates := a.graph.nodes.map fun n =>
      { path := n.path, category := categoryIn a.usage n.path }
    match MovePlan.make candidates grouping.policy a.graph.files with
    | .error e => .error (.plan e)
    | .ok moves =>
      match Rules.derive moves a.graph with
      | .error e => .error (.rules e)
      | .ok rules => .ok { moves, rules, targets := rules.affected a.graph }

def migration (p : Project) (plan : MigrationPlan) (stamp : Stamp) (volume : Volume) : Migration :=
  { root := p.root, plan := plan.moves, rules := plan.rules, targets := plan.targets
    extract := p.config.backend.extract, snapshotDir := p.config.snapshotsIn p.root, stamp, volume }

/-- Restores a snapshot file and removes it once every file is back. -/
def restore (path : Path) (d : Disk) : Except Failure RestoreReport × Disk :=
  match Snapshot.load d path with
  | .error e => (.error e, d)
  | .ok snapshot =>
    let (report, volume) := snapshot.restore { disk := d }
    let d := volume.disk
    if report.isClean then
      match d.removeFile path with
      | .ok d => (.ok report, d)
      | .error e => (.error (.io e), d)
    else
      (.error (.corruption (report.failures.map (·.1)) (some path)
        "The snapshot was kept; fix the listed paths and restore again."), d)

end Project

end Relocation
