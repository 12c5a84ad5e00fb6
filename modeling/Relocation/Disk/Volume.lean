import Relocation.Disk.Basic

/-!
# Volumes

A volume is a disk some of whose operations may fail. Before each call it asks its hazards, which know
the calls made so far. A call that fails leaves the disk as it is.
-/

namespace Relocation

inductive Call where
  | read (path : Path)
  | write (path : Path)
  | rename (source target : Path)
  | createDirs (path : Path)
  | removeFile (path : Path)
  | removeDir (path : Path)
  deriving DecidableEq, Repr

inductive Hazard where
  | none
  | fail (message : String)
  /-- A write stores other bytes than it was given. -/
  | garble (content : Text.Bytes)
  /-- Directories are made only down to the one that many levels above the one asked for. -/
  | shallow (levels : Nat)
  deriving DecidableEq, Repr

structure Volume where
  disk : Disk
  /-- Calls made so far, last first. -/
  past : List Call := []
  /-- What happens to a call, given those before it. -/
  hazards : List Call → Call → Hazard := fun _ _ => .none

namespace Volume

/-- A computation on a volume. What it did stays done when it fails. -/
abbrev Op (α : Type) := Volume → Except IoFault α × Volume

/-- Makes a call that acts on the disk if nothing befalls it. -/
def call (c : Call) (act : Hazard → Disk → Except IoFault (α × Disk)) : Op α := fun v =>
  let hazard := v.hazards v.past c
  let v := { v with past := c :: v.past }
  match hazard with
  | .fail message => (.error (.other message), v)
  | hazard =>
    match act hazard v.disk with
    | .ok (a, disk) => (.ok a, { v with disk })
    | .error e => (.error e, v)

/-- An action that changes the disk only. -/
def effect (act : Disk → Except IoFault Disk) (d : Disk) : Except IoFault (Unit × Disk) :=
  (act d).map ((), ·)

def read (p : Path) : Op Text.Bytes := call (.read p) fun _ d => (d.read p).map (·, d)

def write (p : Path) (content : Text.Bytes) : Op Unit :=
  call (.write p) fun hazard =>
    match hazard with
    | .garble other => effect (·.write p other)
    | _ => effect (·.write p content)

def rename (p q : Path) : Op Unit := call (.rename p q) fun _ => effect (·.rename p q)

def createDirs (p : Path) : Op Unit :=
  call (.createDirs p) fun hazard =>
    match hazard with
    | .shallow levels => effect (·.createDirs (p.ancestors.getD levels ⟨""⟩))
    | _ => effect (·.createDirs p)

def removeFile (p : Path) : Op Unit := call (.removeFile p) fun _ => effect (·.removeFile p)

def removeDir (p : Path) : Op Unit := call (.removeDir p) fun _ => effect (·.removeDir p)

/-- One computation after another; the second is left out if the first fails. -/
def andThen (first : Op α) (next : α → Op β) : Op β := fun v =>
  match first v with
  | (.ok a, v) => next a v
  | (.error e, v) => (.error e, v)

end Volume

/-- The directories from `root`, which is left out, down to `dir` that are not there, outermost
first. -/
def missingDirs (d : Disk) (root dir : Path) : List Path :=
  (dir.ancestors.takeWhile fun p => !p.same root && p.startsWith root && !d.exists? p).reverse

end Relocation
