import Relocation.Extraction.Basic
import Relocation.Json.Basic

/-!
# Extractions as JSON
-/

namespace Relocation

def Path.toJson (p : Path) : Json := .str p.text

def Span.toJson (s : Span) : Json := .obj [("start", .nat s.start), ("end", .nat s.stop)]

def Reference.toJson (r : Reference) : Json :=
  .obj [("source", r.source.toJson), ("specifier", .str r.specifier), ("kind", .str r.kind.name),
    ("span", r.span.toJson), ("line", .nat r.line), ("computed", .bool r.computed)]

def ExportSet.toJson (e : ExportSet) : Json :=
  .obj [("names", .list .str e.names), ("has_default", .bool e.hasDefault),
    ("reexports_all", .bool e.reexportsAll)]

def Extraction.toJson (e : Extraction) : Json :=
  .obj [("path", e.path.toJson), ("references", .list Reference.toJson e.references),
    ("exports", e.exports.toJson), ("unparsable", .nat e.unparsable)]

end Relocation
