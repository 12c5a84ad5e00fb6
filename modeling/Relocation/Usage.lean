import Relocation.Decimal
import Relocation.Glob.Scope
import Relocation.Graph.Basic

/-!
# Usage of modules

A module is classified by the kinds of references that point at it, by whether it exports
anything, and by its size. Only references of other modules count.
-/

namespace Relocation

structure Thresholds where
  /-- An exported module that nobody refers to and that is smaller is likely a leftover. -/
  small : Nat := 5 * 1024
  /-- A module in use that is larger should be split. -/
  large : Nat := 15 * 1024
  deriving DecidableEq, Repr

inductive Category where
  | unreachable
  | orphanedSubstantial
  | oversizedHotspot
  | active
  deriving DecidableEq, Repr

namespace Category

def all : List Category := [.unreachable, .orphanedSubstantial, .oversizedHotspot, .active]

def name : Category → String
  | .unreachable => "unreachable"
  | .orphanedSubstantial => "orphaned_substantial"
  | .oversizedHotspot => "oversized_hotspot"
  | .active => "active"

def ofName? (s : String) : Option Category := all.find? (·.name = s)

def rank : Category → Nat
  | .unreachable => 0
  | .orphanedSubstantial => 1
  | .oversizedHotspot => 2
  | .active => 3

instance : Ord Category := ⟨compareOn rank⟩

instance : Std.TransOrd Category := inferInstanceAs (Std.TransCmp (compareOn rank))

end Category

inductive Confidence where
  | high
  | medium
  deriving DecidableEq, Repr

def Confidence.name : Confidence → String
  | .high => "high"
  | .medium => "medium"

inductive Action where
  | delete
  | review
  | integrate
  | split
  | keep
  deriving DecidableEq, Repr

def Action.name : Action → String
  | .delete => "delete"
  | .review => "review"
  | .integrate => "integrate"
  | .split => "split"
  | .keep => "keep"

inductive Ground where
  | unused
  | unusedSmall (size : Nat)
  | unusedSubstantial (size : Nat)
  | usedLarge (size : Nat)
  | used (incoming : IncomingKinds)
  deriving DecidableEq, Repr

namespace Ground

def category : Ground → Category
  | .unused => .unreachable
  | .unusedSmall _ => .unreachable
  | .unusedSubstantial _ => .orphanedSubstantial
  | .usedLarge _ => .oversizedHotspot
  | .used _ => .active

def confidence : Ground → Confidence
  | .unused => .high
  | .unusedSmall _ => .medium
  | .unusedSubstantial _ => .medium
  | .usedLarge _ => .high
  | .used _ => .high

def action : Ground → Action
  | .unused => .delete
  | .unusedSmall _ => .review
  | .unusedSubstantial _ => .integrate
  | .usedLarge _ => .split
  | .used _ => .keep

def kindNames (k : IncomingKinds) : List String :=
  (if k.statically then [ReferenceKind.static.name] else []) ++
  (if k.lazily then [ReferenceKind.lazy.name] else []) ++
  (if k.structurally then [ReferenceKind.structural.name] else [])

def message : Ground → String
  | .unused => "no incoming references and no exports"
  | .unusedSmall size =>
    s!"exported but never referenced, small ({Decimal.kibibytes size} KiB)"
  | .unusedSubstantial size =>
    s!"exported but never referenced, substantial ({Decimal.kibibytes size} KiB)"
  | .usedLarge size => s!"referenced and large ({Decimal.kibibytes size} KiB)"
  | .used incoming => "referenced (" ++ ", ".intercalate (kindNames incoming) ++ ")"

end Ground

/-- The ground on which a module is classified. -/
def assess (t : Thresholds) (incoming : IncomingKinds) (exported : Bool) (size : Nat) : Ground :=
  if incoming.any then
    if t.large < size then .usedLarge size else .used incoming
  else if !exported then .unused
  else if size < t.small then .unusedSmall size
  else .unusedSubstantial size

structure UsageRecord where
  path : Path
  incoming : IncomingKinds
  exported : Bool
  size : Nat
  ground : Ground
  deriving DecidableEq, Repr

def UsageRecord.category (r : UsageRecord) : Category := r.ground.category

structure UsageSummary where
  total : Nat
  /-- Categories that occur, with their number of records. -/
  byCategory : Table Category Nat
  totalBytes : Nat
  deriving DecidableEq, Repr

namespace Graph

def usageOf (g : Graph) (t : Thresholds) (n : Node) : UsageRecord :=
  let incoming := g.incoming n.path
  let exported := !n.exports.isEmpty
  { path := n.path, incoming, exported, size := n.size
    ground := assess t incoming exported n.size }

/-- One record per module in scope, in path order. -/
def usage (g : Graph) (scope : Scope) (t : Thresholds) : List UsageRecord :=
  (g.nodes.filter fun n => scope.contains n.path).map (g.usageOf t)

end Graph

namespace UsageSummary

def count (s : UsageSummary) (c : Category) : Nat := (s.byCategory.find? c).getD 0

def add (s : UsageSummary) (r : UsageRecord) : UsageSummary :=
  { s with byCategory := s.byCategory.modify r.category 0 (· + 1), totalBytes := s.totalBytes + r.size }

def ofRecords (records : List UsageRecord) : UsageSummary :=
  records.foldl add { total := records.length, byCategory := ∅, totalBytes := 0 }

end UsageSummary

end Relocation
