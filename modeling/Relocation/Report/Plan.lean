import Relocation.Report.Extraction
import Relocation.Rules

/-!
# Plans and rules as JSON
-/

namespace Relocation

def Move.toJson (m : Move) : Json := .obj [("from", m.source.toJson), ("to", m.target.toJson)]

def Collision.toJson : Collision → Json
  | .shared destination sources =>
    .obj [("kind", .str "shared_destination"), ("destination", destination.toJson),
      ("sources", .list Path.toJson sources)]
  | .existing destination source =>
    .obj [("kind", .str "existing_file"), ("destination", destination.toJson),
      ("source", source.toJson)]

def RuleScope.toJson : RuleScope → Json
  | .shared => .obj [("scope", .str "global")]
  | .referrer p => .obj [("scope", .str "referrer"), ("referrer", p.toJson)]

def Rule.toJson (r : Rule) : Json :=
  .obj [("from", .str r.old), ("to", .str r.new), ("scope", r.scope.toJson)]

def Rules.toJson (r : Rules) : Json := .list Rule.toJson r.toList

end Relocation
