import TypeFlow.Program.Basic

/-!
# Assigned variables

The variables that some assignment below an expression has as a target, in the order in which a
walk from the outside in meets them. The bodies of definitions and blocks are not entered.
-/

namespace TypeFlow.Program

/-- Whether variables assigned inside a construct stay there. -/
def opensScope {α : Type} : Construct α → Bool
  | .methodDef .. | .macroDef .. | .classDef .. | .moduleDef .. | .libDef .. | .block .. => true
  | _ => false

/-- The targets of an assignment. -/
def targets {α : Type} : Construct α → List α
  | .assign target _ => [target]
  | .multiAssign targets _ => targets
  | _ => []

def assignedWithin (p : Program) (name? : Construct ExprId → Option String) :
    Nat → List String → ExprId → List String
  | 0, names, _ => names
  | fuel + 1, names, id =>
    let c := p.construct id
    if opensScope c then names
    else
      let here := (targets c).filterMap fun target => name? (p.construct target)
      c.children.foldl (p.assignedWithin name? fuel) (here.foldl insertLast names)

def localName? {α : Type} : Construct α → Option String
  | .var name => some name
  | _ => none

def instanceVarName? {α : Type} : Construct α → Option String
  | .instanceVar name => some name
  | _ => none

def localsAssignedIn (p : Program) (id : ExprId) : List String :=
  p.assignedWithin localName? (id.index + 1) [] id

def instanceVarsAssignedIn (p : Program) (id : ExprId) : List String :=
  p.assignedWithin instanceVarName? (id.index + 1) [] id

end TypeFlow.Program
