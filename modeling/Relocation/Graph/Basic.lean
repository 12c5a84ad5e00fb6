import Relocation.Extraction.Backend
import Relocation.Graph.Resolution

/-!
# The reference graph

Modules with their exports and resolved references, and the edges between modules. An edge is
counted once per kind, and a reference of a module to itself is no edge.
-/

namespace Relocation

/-- A module with what was found in it. -/
structure Node where
  path : Path
  size : Nat
  decoded : Bool
  exports : ExportSet
  deriving DecidableEq, Repr

structure ResolvedReference where
  reference : Reference
  resolution : Resolution
  deriving DecidableEq, Repr

def ResolvedReference.target? (r : ResolvedReference) : Option Path := r.resolution.target?

inductive Diagnostic where
  | undecodable (path : Path)
  | unparsable (path : Path) (count : Nat)
  | unresolved (source : Path) (specifier : String) (kind : ReferenceKind) (line : Nat)
      (reason : Unresolved)
  deriving DecidableEq, Repr

structure Edge where
  source : Path
  target : Path
  kind : ReferenceKind
  deriving DecidableEq, Repr

namespace Edge

def same (a b : Edge) : Bool := a.source.same b.source && a.target.same b.target && a.kind = b.kind

def distinct : List Edge → List Edge
  | [] => []
  | e :: rest => e :: (distinct rest).filter fun f => !f.same e

end Edge

/-- Which kinds of references point at a module. -/
structure IncomingKinds where
  statically : Bool := false
  lazily : Bool := false
  structurally : Bool := false
  deriving DecidableEq, Repr

def IncomingKinds.any (k : IncomingKinds) : Bool := k.statically || k.lazily || k.structurally

structure Graph where
  root : Path
  /-- In path order. -/
  nodes : List Node
  files : List Path
  /-- The references of each module that could be read, in text order. -/
  forward : Table Path (List ResolvedReference)
  edges : List Edge
  diagnostics : List Diagnostic
  aliases : List Alias
  extensions : List String

structure GraphStats where
  modules : Nat
  references : Nat
  edges : Nat
  unresolved : Nat
  unparsable : Nat
  deriving DecidableEq, Repr

namespace Graph

/-- Every module that could be decoded, read and sorted by path. -/
def extractAll (extract : Path → String → Extraction) (modules : List Module) : List Extraction :=
  ((modules.filter (·.decoded)).map fun m => extract m.path m.content).mergeSort
    fun a b => (compare a.path b.path).isLE

/-- The last extraction for a path. -/
def exportsOf (extractions : List Extraction) (path : Path) : ExportSet :=
  ((extractions.reverse.find? (·.path.same path)).map (·.exports)).getD {}

/-- The modules of a tree as nodes. Of several with one path the last counts. -/
def nodesOf (tree : SourceTree) (extractions : List Extraction) : List Node :=
  (Table.ofListLast (tree.modules.map fun m => (m.path, m))).values.map fun m =>
    { path := m.path, size := m.size, decoded := m.decoded
      exports := exportsOf extractions m.path }

def resolverOf (nodes : List Node) (files : List Path) (aliases : List Alias)
    (extensions : List String) : Resolver :=
  { modules := nodes.map fun n => ⟨n.path, n.exports⟩, files, aliases, extensions }

def resolveAll (r : Resolver) (e : Extraction) : List ResolvedReference :=
  e.references.map fun ref => { reference := ref, resolution := r.resolve ref }

/-- Edges that the references of one module make; ends are spelt as the nodes are. -/
def edgesFrom (nodes : List Node) (source : Node) (refs : List ResolvedReference) : List Edge :=
  refs.flatMap fun r =>
    (nodes.filter fun n => !n.path.same source.path && r.resolution.targets.any (·.same n.path)).map
      fun n => { source := source.path, target := n.path, kind := r.reference.kind }

def unresolvedIn (source : Path) (refs : List ResolvedReference) : List Diagnostic :=
  refs.filterMap fun r =>
    match r.resolution with
    | .resolved _ => none
    | .unresolved reason =>
      some (.unresolved source r.reference.specifier r.reference.kind r.reference.line reason)

def build (tree : SourceTree) (extractions : List Extraction) (aliases : List Alias)
    (extensions : List String) : Graph :=
  let nodes := nodesOf tree extractions
  let known := extractions.filter fun e => nodes.any (·.path.same e.path)
  let resolver := resolverOf nodes tree.files aliases extensions
  let resolved := known.map fun e => (e.path, resolveAll resolver e)
  { root := tree.root
    nodes
    files := tree.files
    forward := Table.insertAll resolved ∅
    edges := Edge.distinct (resolved.flatMap fun (p, refs) =>
      (nodes.filter (·.path.same p)).flatMap fun n => edgesFrom nodes n refs)
    diagnostics :=
      (nodes.filter (!·.decoded)).map (.undecodable ·.path) ++
      (known.filter (0 < ·.unparsable)).map (fun e => .unparsable e.path e.unparsable) ++
      resolved.flatMap fun (p, refs) => unresolvedIn p refs
    aliases
    extensions }

def resolver (g : Graph) : Resolver := resolverOf g.nodes g.files g.aliases g.extensions

def referencesFrom (g : Graph) (p : Path) : List ResolvedReference := (g.forward.find? p).getD []

/-- Modules with an edge to `p`, in path order. -/
def referrersOf (g : Graph) (p : Path) : List Path :=
  Keys.ofList ((g.edges.filter (·.target.same p)).map (·.source))

def incoming (g : Graph) (p : Path) : IncomingKinds :=
  let kinds := (g.edges.filter (·.target.same p)).map (·.kind)
  { statically := kinds.contains .static, lazily := kinds.contains .lazy
    structurally := kinds.contains .structural }

def isUnresolved : Diagnostic → Bool
  | .unresolved .. => true
  | _ => false

def unparsableCount : Diagnostic → Nat
  | .unparsable _ count => count
  | _ => 0

def stats (g : Graph) : GraphStats :=
  { modules := g.nodes.length
    references := g.forward.values.foldr (fun refs n => refs.length + n) 0
    edges := g.edges.length
    unresolved := g.diagnostics.countP isUnresolved
    unparsable := g.diagnostics.foldr (fun d n => unparsableCount d + n) 0 }

end Graph

end Relocation
