import Relocation.Migration.Basic
import Relocation.Shell.Run

/-!
# Probes

A command probe runs a program in the project and passes if it ends with status zero. Its output is
what it wrote, first to the one stream and then to the other.
-/

namespace Relocation.Probe

/-- A probe that says the same whatever it is run on. -/
def fixed (outcome : ProbeOutcome) : Probe := fun _ _ disk => (outcome, disk)

def outcomeOf (seconds : Nat) (s : Shell.State) : ProbeOutcome :=
  match s.halt with
  | some .timedOut =>
    { passed := false, timedOut := true, output := s!"timed out after {seconds}s" }
  | halt =>
    { passed := s.status = 0 && halt ≠ some .killed
      output := Text.decodeLossy s.out ++ Text.decodeLossy s.err }

def inDir (act : Shell.State → Shell.State) : Probe := fun root seconds disk =>
  let here := match disk.locate true root with
    | .ok (.taken loc .dir) => loc
    | _ => disk.here
  let s := act { disk := { disk with here }, limit := seconds * 1000 }
  (outcomeOf seconds s, { s.disk with here := disk.here })

def shell (command : String) : Probe := inDir (Shell.run command)

/-- A program by its name or path; the shell is one of them. -/
def command (program : String) (args : List String) : Probe :=
  match ((⟨program⟩ : Path).fileName?).getD program, args with
  | "sh", "-c" :: text :: _ => shell text
  | "sleep", args => inDir (Shell.sleep args)
  | name, args =>
    match Shell.tool? name with
    | some _ => inDir (Shell.invoke name args)
    | none =>
      fixed { passed := false, output := s!"failed to start {program}: {IoFault.notFound.message}" }

end Relocation.Probe
