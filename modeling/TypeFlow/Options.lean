import TypeFlow.Tree.Decode

/-!
# Options of a run
-/

namespace TypeFlow

structure Options where
  /-- Whether sizes are counted at the end. -/
  stats : Bool := false
  /-- How deeply expansions may nest in each other. -/
  maxExpansionDepth : Nat := 64
  /-- Whether constants that nothing reads are inferred at the end. -/
  inferUnreadConstants : Bool := true
  deriving DecidableEq, Repr

namespace Options

instance : Inhabited Options := ⟨{}⟩

/-- Depths are unsigned 64-bit integers. -/
def greatestDepth : Nat := Nat.pow 2 64 - 1

/-- Reads the options that are given; the others keep their defaults. -/
def decode? (j : Json) : Option Options := do
  let fields ← j.record? ["stats", "max_macro_depth", "infer_unread_constants"]
  let default : Options := {}
  let stats ← fields.orElse "stats" default.stats Json.bool?
  let depth ←
    fields.orElse "max_macro_depth" default.maxExpansionDepth (Json.natUpTo? greatestDepth)
  let unread ← fields.orElse "infer_unread_constants" default.inferUnreadConstants Json.bool?
  return ⟨stats, depth, unread⟩

def encode (o : Options) : Json :=
  .object [("stats", .bool o.stats), ("max_macro_depth", .ofNat o.maxExpansionDepth),
    ("infer_unread_constants", .bool o.inferUnreadConstants)]

end Options

end TypeFlow
