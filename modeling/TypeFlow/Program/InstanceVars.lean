import TypeFlow.Expr.Assigned

/-!
# Methods and instance variables

Registering a constructor narrows down which instance variables every constructor assigns. A
variable that none of the constructors up the chain is sure to assign may be read before it is
set, so that its node also has the type `Nil`.
-/

namespace TypeFlow.Program

/-- The name of constructors. -/
def constructorName : String := "initialize"

/-- The instance variables that a method assigns. -/
def assignedByDef (p : Program) (definition : ExprId) : List String :=
  match p.construct definition with
  | .methodDef _ _ _ (some body) _ _ => p.instanceVarsAssignedIn body
  | _ => []

/-- Registers a method. -/
def addMethod (p : Program) (owner : TypeId) (key : MethodKey) (definition : ExprId) : Program :=
  let types := p.types.addMethod owner key definition
  if key.1 = constructorName then
    let assigned := p.assignedByDef definition
    { p with
      types := types.modify owner fun e =>
        { e with
          assignedAtStart := some (match e.assignedAtStart with
            | some earlier => earlier.filter (· ∈ assigned)
            | none => assigned) } }
  else { p with types }

/-- Whether the constructors of a type, or of a class above it, all assign a variable. -/
def isAssignedAtStart (p : Program) (owner : TypeId) (name : String) : Bool :=
  let base := match p.types.kind owner with
    | .applied generic _ => generic
    | _ => owner
  (base :: p.types.ancestors base).any fun id =>
    match (p.types.get id).assignedAtStart with
    | some names => name ∈ names
    | none => false

/-- The node of an instance variable. -/
def instanceVarNode (p : Program) (owner : TypeId) (name : String) : NodeId × Program :=
  match (p.types.get owner).instanceVars.get? name with
  | some node => (node, p)
  | none =>
    let (node, p) := p.addVar
    (node, p.modifyTypes fun t => t.modify owner fun e =>
      { e with instanceVars := e.instanceVars.insert name node })

/-- A change to the network of a program. -/
def onNetwork {α : Type} (p : Program) (change : Binding α) : Except GraphFailure α × Program :=
  let (result, network) := change.run p.toNetwork
  (result, { p with toNetwork := network })

/-- The node of an instance variable, bound to `Nil` if the variable may be read before it is set.
-/
def instanceVarFor (p : Program) (owner : TypeId) (name : String) :
    Except GraphFailure NodeId × Program :=
  let (node, p) := p.instanceVarNode owner name
  if p.isAssignedAtStart owner name then (.ok node, p)
  else
    let (result, p) := p.onNetwork (Binding.bind node [nilNode])
    (result.map fun _ => node, p)

end TypeFlow.Program
