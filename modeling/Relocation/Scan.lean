import Relocation.Config.Basic
import Relocation.Disk.Ignore
import Relocation.Failure

/-!
# Scanning a tree
-/

namespace Relocation

def relativePath (root entry : Location) : Path := ⟨"/".intercalate (entry.drop root.length)⟩

/-- Reads the modules below a root, which has no links in its path. Entries that ignore files hide
and those under an excluded name are left out. -/
def scan (d : Disk) (root : Path) (c : Config) : Except Failure SourceTree :=
  match d.locate true root with
  | .ok (.taken top .dir) =>
    let entries := (d.visibleFiles top (d.depth + 1)).filter fun e =>
      !isExcluded c.exclude (relativePath top e)
    let modules := entries.filterMap fun e =>
      if hasExtension c.extensions (relativePath top e) then
        match d.at? e with
        | some (.file content) => some (Module.ofBytes (relativePath top e) content)
        | _ => none
      else none
    .ok ((SourceTree.ofModules root modules).withFiles (entries.map (relativePath top)))
  | _ => .error (.notFound root)

end Relocation
