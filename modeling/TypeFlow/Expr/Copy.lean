import TypeFlow.Diagnostic.Basic
import TypeFlow.Program.Basic
import TypeFlow.Tree.Printer

/-!
# Trees and expressions copied into a program

`Tree.lower` copies a tree into the expressions of a program, parts before the construct that they
are parts of. It fails at the first sugar construct that it meets; what it added before stays.
`Program.copyExpr` copies an expression with all its parts. The copies have nodes of their own,
without types. A part has a smaller identifier than what it is part of, which bounds the
recursion.
-/

namespace TypeFlow

/-- A change to a program that may fail half-way. -/
abbrev Lowering := ExceptT Diagnostic (StateM Program)

namespace Tree

/-- The error for sugar, which a normalizer should have replaced. -/
def sugarError (abbreviation : Sugar Tree) (location : Option Location) : Diagnostic :=
  .internal (.sugarLeft abbreviation.kind (Tree.sugar abbreviation none).text location) location

def addExpr (construct : Construct ExprId) (location : Option Location) : Lowering ExprId :=
  modifyGet fun p => p.addExpr construct location

mutual

def lower : Tree → Lowering ExprId
  | .plain construct location => do addExpr (← lowerConstruct construct) location
  | .sugar abbreviation location => throw (sugarError abbreviation location)

def lowerList : List Tree → Lowering (List ExprId)
  | [] => return []
  | tree :: rest => do
    let id ← tree.lower
    return id :: (← lowerList rest)

def lowerOption : Option Tree → Lowering (Option ExprId)
  | some tree => do return some (← tree.lower)
  | none => return none

def lowerField : Field Tree → Lowering (Field ExprId)
  | ⟨name, type, pointers⟩ => do return ⟨name, ← type.lower, pointers⟩

def lowerFields : List (Field Tree) → Lowering (List (Field ExprId))
  | [] => return []
  | field :: rest => do
    let field ← lowerField field
    return field :: (← lowerFields rest)

def lowerBlockParam : BlockParam Tree → Lowering (BlockParam ExprId)
  | ⟨name, inputs⟩ => do return ⟨name, ← lowerList inputs⟩

def lowerBlockOption : Option (BlockParam Tree) → Lowering (Option (BlockParam ExprId))
  | some p => do return some (← lowerBlockParam p)
  | none => return none

def lowerConstruct : Construct Tree → Lowering (Construct ExprId)
  | .nop => return .nop
  | .nilLiteral => return .nilLiteral
  | .boolLiteral value => return .boolLiteral value
  | .charLiteral value => return .charLiteral value
  | .numberLiteral text kind => return .numberLiteral text kind
  | .stringLiteral value => return .stringLiteral value
  | .symbolLiteral value => return .symbolLiteral value
  | .sequence items => do return .sequence (← lowerList items)
  | .var name => return .var name
  | .instanceVar name => return .instanceVar name
  | .globalVar name => return .globalVar name
  | .path names fromRoot => return .path names fromRoot
  | .declareVar name type => do return .declareVar name (← type.lower)
  | .assign target value => do
    let target ← target.lower
    return .assign target (← value.lower)
  | .multiAssign targets values => do
    let targets ← lowerList targets
    return .multiAssign targets (← lowerList values)
  | .conditional cond onTrue onFalse operator => do
    let cond ← cond.lower
    let onTrue ← lowerOption onTrue
    return .conditional cond onTrue (← lowerOption onFalse) operator
  | .loop cond body runOnce => do
    let cond ← cond.lower
    return .loop cond (← lowerOption body) runOnce
  | .breakOut values => do return .breakOut (← lowerList values)
  | .returnFrom values => do return .returnFrom (← lowerList values)
  | .yieldTo values => do return .yieldTo (← lowerList values)
  | .call receiver name args block => do
    let receiver ← lowerOption receiver
    let args ← lowerList args
    return .call receiver name args (← lowerOption block)
  | .block params body => do
    let params ← lowerList params
    return .block params (← lowerOption body)
  | .methodDef receiver name params body returnType blockParam => do
    let receiver ← lowerOption receiver
    let body ← lowerOption body
    let returnType ← lowerOption returnType
    return .methodDef receiver name params body returnType (← lowerBlockOption blockParam)
  | .macroDef receiver name params body => do
    let receiver ← lowerOption receiver
    return .macroDef receiver name params (← lowerOption body)
  | .classDef name superclass typeVars isAbstract body => do
    let superclass ← lowerOption superclass
    return .classDef name superclass typeVars isAbstract (← lowerOption body)
  | .moduleDef name typeVars body => do return .moduleDef name typeVars (← lowerOption body)
  | .includeModule name => do return .includeModule (← name.lower)
  | .libDef name libname body => do return .libDef name libname (← lowerOption body)
  | .funDef name realName args returnType pointers varargs => do
    let args ← lowerFields args
    return .funDef name realName args (← lowerOption returnType) pointers varargs
  | .aliasDef name type pointers => do return .aliasDef name (← type.lower) pointers
  | .structDef name fields => do return .structDef name (← lowerFields fields)
  | .unionDef name fields => do return .unionDef name (← lowerFields fields)
  | .enumDef name constants => return .enumDef name constants
  | .structGet name => return .structGet name
  | .structSet name => return .structSet name
  | .unionGet name => return .unionGet name
  | .unionSet name => return .unionSet name
  | .classOfSelf => return .classOfSelf
  | .allocate => return .allocate
  | .eitherValue left right => do
    let left ← left.lower
    return .eitherValue left (← right.lower)
  | .typeUnion types => do return .typeUnion (← lowerList types)
  | .genericInstance name args => do
    let name ← name.lower
    return .genericInstance name (← lowerList args)
  | .isA object type => do
    let object ← object.lower
    return .isA object (← type.lower)
  | .typeOf values => do return .typeOf (← lowerList values)
  | .pointerOf target => do return .pointerOf (← target.lower)
  | .pointerMalloc => return .pointerMalloc
  | .pointerRealloc => return .pointerRealloc
  | .pointerGetValue => return .pointerGetValue
  | .pointerSetValue => return .pointerSetValue
  | .pointerAdd => return .pointerAdd
  | .pointerCast => return .pointerCast

end

end Tree

namespace Program

/-- The expression that a tree becomes. -/
def lower (p : Program) (tree : Tree) : Except Diagnostic ExprId × Program :=
  tree.lower.run p

def copyWithin : Nat → ExprId → StateM Program ExprId
  | 0, id => return id
  | fuel + 1, id => do
    let e := (← get).expr id
    let construct ← e.construct.traverse (copyWithin fuel)
    modifyGet fun p => p.addExpr construct e.location

def copyExpr (p : Program) (id : ExprId) : ExprId × Program :=
  (copyWithin (id.index + 1) id).run p

end Program

end TypeFlow
