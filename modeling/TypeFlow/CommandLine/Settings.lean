import TypeFlow.CommandLine.Settings.Parser
import TypeFlow.Options

/-!
# Settings files

A settings file is a TOML document with the tables `inference` and `output`. `Settings.ofText?`
refuses a value of the wrong kind for a key that it knows; it passes over tables and keys that it
does not know, and what is left out is as by default.
-/

namespace TypeFlow

structure Settings where
  options : Options := {}
  color : Bool := true
  /-- Whether statements are shown beside their types. -/
  showSource : Bool := true
  deriving DecidableEq, Repr

namespace Settings

/-- The table under a key. -/
def section? (table : Table) (key : String) : Option Table :=
  match table.lookup key with
  | none => some []
  | some (.table _ entries) => some entries
  | some _ => none

/-- A boolean under a key, or what it is by default. -/
def bool? (table : Table) (key : String) (default : Bool) : Option Bool :=
  match table.lookup key with
  | none => some default
  | some (.value (.bool value)) => some value
  | some _ => none

/-- An integer under a key that is not negative, or what it is by default. -/
def nat? (table : Table) (key : String) (default : Nat) : Option Nat :=
  match table.lookup key with
  | none => some default
  | some (.value (.int (.ofNat n))) => some n
  | some _ => none

def ofTable? (table : Table) : Option Settings := do
  let defaults : Settings := {}
  let options := defaults.options
  let inference ← section? table "inference"
  let stats ← bool? inference "stats" options.stats
  let depth ← nat? inference "max_macro_depth" options.maxExpansionDepth
  let unread ← bool? inference "infer_unread_constants" options.inferUnreadConstants
  let output ← section? table "output"
  let color ← bool? output "color" defaults.color
  let showSource ← bool? output "show_source" defaults.showSource
  return { options := ⟨stats, depth, unread⟩, color, showSource }

def ofText? (text : String) : Option Settings := do
  ofTable? (← Table.ofText? text)

end Settings

end TypeFlow
