import Relocation.Config.Basic
import Relocation.Report.Graph

/-!
# Configurations as JSON
-/

namespace Relocation

def GroupRule.toJson (r : GroupRule) : Json :=
  .obj [("pattern", .str r.pattern), ("category", .ofOption (fun c => .str c.name) r.category),
    ("destination", .str r.destination)]

def Thresholds.toJson (t : Thresholds) : Json :=
  .obj [("small_bytes", .nat t.small), ("large_bytes", .nat t.large)]

def Config.toJson (c : Config) : Json :=
  .obj [
    ("project", .obj [("root", .str c.root), ("exclude", .list .str c.exclude),
      ("extensions", .list .str c.extensions)]),
    ("aliases", .list Alias.toJson c.aliases),
    ("extract", .obj [("backend", .str c.backend.name), ("workers", .ofOption .nat c.workers)]),
    ("classify", .obj [("small_threshold", .nat c.thresholds.small),
      ("large_threshold", .nat c.thresholds.large), ("scope", .list .str c.scope)]),
    ("group", .list GroupRule.toJson c.groups),
    ("verify", .obj [("command", .ofOption .str c.verifyCommand),
      ("timeout_secs", .nat c.verifySeconds)]),
    ("snapshot", .obj [("dir", .str c.snapshotDir)])]

end Relocation
