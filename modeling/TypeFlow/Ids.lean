/-!
# Identifiers

Positions in the tables of a program: its expressions, the nodes of its flow graph, its types and
its constants. Each table has a type of its own for them, so that one is never used for another.
-/

namespace TypeFlow

structure ExprId where
  index : Nat
  deriving DecidableEq, Inhabited, Repr

structure NodeId where
  index : Nat
  deriving DecidableEq, Inhabited, Repr

structure TypeId where
  index : Nat
  deriving DecidableEq, Inhabited, Repr

structure ConstantId where
  index : Nat
  deriving DecidableEq, Inhabited, Repr

end TypeFlow
