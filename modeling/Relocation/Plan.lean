import Relocation.Usage

/-!
# Move plans

A plan sends modules to new paths. A policy names a directory for a module, which keeps its file
name there. No two modules may share a destination, and none may land on a file that exists, even
one that moves away.
-/

namespace Relocation

structure Candidate where
  path : Path
  category : Option Category := none
  deriving DecidableEq, Repr

/-- The directory in which a module should live; none if it stays. -/
abbrev Policy := Path → Option Category → Option Path

/-- A rule of a grouping: modules that a pattern selects, optionally of one category only, go to a
directory. -/
structure GroupRule where
  pattern : String
  category : Option Category
  destination : String
  deriving DecidableEq, Repr

/-- Grouping rules with their patterns read. -/
structure Grouping where
  rules : List (Glob × GroupRule)

namespace Grouping

def ofRules (rules : List GroupRule) : Except Glob.Invalid Grouping := do
  let rules ← rules.mapM fun r => do
    let glob ← Glob.parse r.pattern
    pure (glob, r)
  pure ⟨rules⟩

def applies (path : Path) (category : Option Category) (g : Glob) (r : GroupRule) : Bool :=
  g.selects path &&
    match r.category with
    | none => true
    | some c => category = some c

/-- The first rule that applies decides. -/
def policy (g : Grouping) : Policy := fun path category =>
  (g.rules.find? fun (glob, r) => applies path category glob r).map fun (_, r) => ⟨r.destination⟩

end Grouping

structure Move where
  source : Path
  target : Path
  deriving DecidableEq, Repr

inductive Collision where
  | shared (destination : Path) (sources : List Path)
  | existing (destination source : Path)
  deriving DecidableEq, Repr

namespace Collision

def message : Collision → String
  | .shared destination sources =>
    destination.text ++ " <- " ++ ", ".intercalate (sources.map (·.text))
  | .existing destination source =>
    destination.text ++ " <- " ++ source.text ++ " (file exists)"

end Collision

inductive PlanFault where
  | collisions (all : List Collision)
  /-- The destination directory of a module lies outside the tree. -/
  | invalidDestination (module destination : Path)
  deriving DecidableEq, Repr

namespace PlanFault

def message : PlanFault → String
  | .collisions all =>
    s!"move plan has {all.length} collision(s): " ++ "; ".intercalate (all.map Collision.message)
  | .invalidDestination module destination =>
    s!"invalid destination for {module.text}: {destination.text} must be relative to the root"

end PlanFault

/-- Moves to be made. A plan that `make` returns has them in ascending order of their sources, which
is what looking up a destination counts on; a plan may also be given as it is. -/
structure MovePlan where
  moves : List Move
  deriving DecidableEq, Repr

namespace MovePlan

def destination? (plan : MovePlan) (p : Path) : Option Path :=
  (bisect? (fun m => compare m.source p) plan.moves).map (·.target)

def isMoved (plan : MovePlan) (p : Path) : Bool := (plan.destination? p).isSome

/-- Where a path lives once the plan has run. -/
def finalPath (plan : MovePlan) (p : Path) : Path := (plan.destination? p).getD p

inductive Placement where
  | stays
  | outside (destination : Path)
  | moves (target : Path)

def place (policy : Policy) (c : Candidate) : Placement :=
  match policy c.path c.category, c.path.fileName? with
  | some dir, some name =>
    let target := (dir.join ⟨name⟩).clean
    if !target.staysInside then .outside dir
    else if target.same c.path then .stays
    else .moves target
  | _, _ => .stays

/-- Destinations by source. The first candidate that would leave the tree stops the plan. -/
def targets (policy : Policy) : List Candidate → Table Path Path → Except PlanFault (Table Path Path)
  | [], t => .ok t
  | c :: rest, t =>
    match place policy c with
    | .stays => targets policy rest t
    | .outside dir => .error (.invalidDestination c.path dir)
    | .moves target => targets policy rest (t.insert c.path target)

def byDestination (t : Table Path Path) : Table Path (List Path) :=
  t.entries.foldl (fun acc (source, target) => acc.modify target [] (· ++ [source])) ∅

def collision? (existing : List Path) : Path × List Path → Option Collision
  | (destination, [source]) =>
    if Keys.contains destination existing then some (.existing destination source) else none
  | (destination, sources) => some (.shared destination sources)

def make (candidates : List Candidate) (policy : Policy) (existing : List Path) :
    Except PlanFault MovePlan := do
  let t ← targets policy candidates ∅
  match (byDestination t).filterMap (collision? existing) with
  | [] => .ok ⟨t.entries.map fun (source, target) => ⟨source, target⟩⟩
  | collisions => .error (.collisions collisions)

end MovePlan

end Relocation
