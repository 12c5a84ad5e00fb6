import Relocation.Plan

/-!
# Configuration
-/

namespace Relocation

structure Config where
  /-- Directory to scan, relative to the configuration file. -/
  root : String := "."
  /-- Directory names that are skipped beside the built-in ones. -/
  exclude : List String := []
  /-- Module extensions in the order in which they are tried. -/
  extensions : List String := [".ts", ".tsx", ".js", ".jsx", ".mjs", ".cjs"]
  aliases : List Alias := []
  backend : Backend := .grammar
  workers : Option Nat := none
  thresholds : Thresholds := {}
  /-- Globs of the modules to classify; none means all. -/
  scope : List String := []
  groups : List GroupRule := []
  verifyCommand : Option String := none
  verifySeconds : Nat := 300
  /-- Where snapshots are kept, relative to the root. -/
  snapshotDir : String := ".restructure/snapshots"
  deriving DecidableEq, Repr

namespace Config

def fileName : Path := ⟨"restructure.toml"⟩

def rootIn (c : Config) (dir : Path) : Path := dir.join ⟨c.root⟩

def snapshotsIn (c : Config) (root : Path) : Path := root.join ⟨c.snapshotDir⟩

def defaultAliases : List Alias := [⟨"@/", ⟨"src"⟩⟩]

/-- The configured aliases, else those of the project's compiler settings, else `@/` for `src`. -/
def aliasesWith (c : Config) (compiler : List Alias) : List Alias :=
  if !c.aliases.isEmpty then c.aliases
  else if !compiler.isEmpty then compiler
  else defaultAliases

end Config

end Relocation
