import Relocation.Report.Extraction
import Relocation.Usage

/-!
# Graphs and usage as JSON
-/

namespace Relocation

def Resolution.toJson : Resolution → Json
  | .resolved targets =>
    .obj [("status", .str "resolved"), ("targets", .list Path.toJson targets)]
  | .unresolved reason =>
    .obj [("status", .str "unresolved"), ("targets", .str reason.name)]

def ResolvedReference.toJson (r : ResolvedReference) : Json :=
  .obj [("reference", r.reference.toJson), ("resolution", r.resolution.toJson)]

def Diagnostic.toJson : Diagnostic → Json
  | .undecodable path =>
    .obj [("kind", .str "undecodable_module"), ("path", path.toJson)]
  | .unparsable path count =>
    .obj [("kind", .str "unparsable_spans"), ("path", path.toJson), ("count", .nat count)]
  | .unresolved source specifier kind line reason =>
    .obj [("kind", .str "unresolved_reference"), ("source", source.toJson),
      ("specifier", .str specifier), ("reference_kind", .str kind.name), ("line", .nat line),
      ("reason", .str reason.name)]

def IncomingKinds.toJson (k : IncomingKinds) : Json :=
  .obj [("statically", .bool k.statically), ("lazily", .bool k.lazily),
    ("structurally", .bool k.structurally)]

def GraphStats.toJson (s : GraphStats) : Json :=
  .obj [("module_count", .nat s.modules), ("reference_count", .nat s.references),
    ("resolved_edges", .nat s.edges), ("unresolved_count", .nat s.unresolved),
    ("unparsable_spans", .nat s.unparsable)]

namespace Graph

def nodeJson (g : Graph) (n : Node) : Json :=
  .obj [("path", n.path.toJson), ("size_bytes", .nat n.size), ("exports", n.exports.toJson),
    ("references", .list ResolvedReference.toJson (g.referencesFrom n.path))]

def toJson (g : Graph) : Json :=
  .obj [("root", g.root.toJson), ("stats", g.stats.toJson), ("modules", .list g.nodeJson g.nodes),
    ("diagnostics", .list Diagnostic.toJson g.diagnostics)]

end Graph

def UsageRecord.toJson (r : UsageRecord) : Json :=
  .obj [("path", r.path.toJson), ("statically_referenced", .bool r.incoming.statically),
    ("lazily_referenced", .bool r.incoming.lazily),
    ("structurally_referenced", .bool r.incoming.structurally), ("is_exported", .bool r.exported),
    ("size_bytes", .nat r.size), ("category", .str r.category.name),
    ("confidence", .str r.ground.confidence.name), ("reason", .str r.ground.message),
    ("recommended_action", .str r.ground.action.name)]

def UsageSummary.toJson (s : UsageSummary) : Json :=
  .obj [("total", .nat s.total),
    ("by_category", .obj (s.byCategory.entries.map fun (c, n) => (c.name, .nat n))),
    ("total_bytes", .nat s.totalBytes)]

def Alias.toJson (a : Alias) : Json := .obj [("prefix", .str a.lead), ("dir", a.dir.toJson)]

end Relocation
