import TypeFlow.Text
import TypeFlow.Tree.Kind

/-!
# What is wrong with a program

`Problem` lists the faults of a program that inference reports, `Defect` the states that no
program should lead to. Types are given by their names. `Problem.message` and `Defect.message`
hold all wording.
-/

namespace TypeFlow

inductive Problem where
  -- names
  | uninitializedGlobal (name : String)
  | uninitializedConstant (path : List String)
  | alreadyInitialized (path : List String)
  | alreadyDefined (name : String)
  | recursiveConstant (name : String) (chain : List String)
  | cannotAssignTo (kind : Kind)
  | assignmentCount (targets values : Nat)
  -- types
  | notAType (path : String)
  | notAClass (name : String)
  | notAModule (name : String)
  | notALib (name : String)
  | notGenericClass (name : String)
  | notGenericModule (name : String)
  | genericModule (name : String)
  | typeVarCount (name : String) (found expected : Nat)
  | superclassMismatch (name found previous : String)
  | genericAllocation (name : String)
  | abstractAllocation (name : String)
  | notAllowedInLib (suggestion : Option String)
  | funRedefinition (previous : String)
  | outsidePointer (kind : Kind) (type : String)
  -- instance variables and fields
  | instanceVarAtTopLevel
  | instanceVarInside (type : String)
  | notAField (name type : String)
  | fieldExpects (name expected actual : String)
  | memberExpects (name owner expected actual : String)
  -- control
  | breakOutside
  | returnAtTopLevel
  | noBlock
  | missingYield (position : Nat) (expected : String)
  | yieldType (position : Nat) (expected actual : String)
  | returnTypeUnknown
  | blockInputUnknown
  -- calls
  | undefinedMethod (name receiver : String)
  | argumentCount (method : String) (found expected : Nat)
  | argumentType (position : Nat) (method expected actual : String)
  -- generated code
  | expansionTooDeep (limit : Nat)
  | invalidExpansion (source report : String)
  | noGenerator
  | templateNotText
  -- what was being done when the cause arose
  | assigningTo (path : String)
  | evaluatingConstant (name : String)
  | givingBlockTo (method : String)
  | instantiating (owner method : String) (args : List String)
  | reported (text : String)
  deriving DecidableEq, Repr

namespace Problem

def quoted (text : String) : String := "\x27" ++ text ++ "\x27"

def counts (found expected : Nat) : String := s!"({found} for {expected})"

/-- The lines of generated code, numbered. -/
def listing (source : String) : String :=
  "\n".intercalate ((Text.lines source).zipIdx.map fun (line, index) =>
    Text.padLeft 3 (index + 1) ++ ". " ++ line)

/-- Generated code with the report of what is wrong with it. -/
def expansionReport (source report : String) : String :=
  let rule := Text.copies 80 '='
  let dashes := Text.copies 80 '-'
  "macro didn't expand to a valid program, it expanded to:\n\n" ++ rule ++ "\n" ++ dashes ++ "\n"
    ++ listing source ++ "\n" ++ dashes ++ "\n" ++ report ++ rule

def message : Problem → String
  | uninitializedGlobal name => s!"uninitialized global {name}"
  | uninitializedConstant path => "uninitialized constant " ++ "::".intercalate path
  | alreadyInitialized path => "already initialized constant " ++ "::".intercalate path
  | alreadyDefined name => s!"{name} is already defined"
  | recursiveConstant name chain =>
    s!"recursive dependency of constant {name}: " ++ " -> ".intercalate chain
  | cannotAssignTo kind => "can't assign to " ++ kind.shape
  | assignmentCount targets values =>
    s!"multiple assignment count mismatch ({targets} targets for {values} values)"
  | notAType path => s!"{path} is not a type"
  | notAClass name => s!"{name} is not a class"
  | notAModule name => s!"{name} is not a module"
  | notALib name => s!"{name} is not a lib"
  | notGenericClass name => s!"{name} is not a generic class"
  | notGenericModule name => s!"{name} is not a generic module"
  | genericModule name => s!"{name} is a generic module"
  | typeVarCount name found expected =>
    s!"wrong number of type vars for {name} " ++ counts found expected
  | superclassMismatch name found previous =>
    s!"superclass mismatch for class {name} ({found} for {previous})"
  | genericAllocation name =>
    s!"can't create instance of generic class {name} without specifying its type vars"
  | abstractAllocation name => s!"can't instantiate abstract class {name}"
  | notAllowedInLib suggestion =>
    "only primitive types and structs are allowed in lib declarations"
      ++ (match suggestion with | some name => s!" (did you mean {name}?)" | none => "")
  | funRedefinition previous => s!"fun redefinition with different signature (was {previous})"
  | outsidePointer kind type =>
    kind.shape ++ s!" can only be used inside Pointer(T), not {type}"
  | instanceVarAtTopLevel => "can't use instance variables at the top level"
  | instanceVarInside type => s!"can't use instance variables inside {type}"
  | notAField name type => s!"{name} is not a field of {type}"
  | fieldExpects name expected actual =>
    "field " ++ quoted name ++ s!" expects {expected}, not {actual}"
  | memberExpects name owner expected actual =>
    "field " ++ quoted name ++ s!" of {owner} expects {expected}, not {actual}"
  | breakOutside => "Invalid break"
  | returnAtTopLevel => "can't return from top level"
  | noBlock => "no block given"
  | missingYield position expected =>
    s!"missing argument #{position} of yield with type {expected}"
  | yieldType position expected actual =>
    s!"argument #{position} of yield expected to be {expected}, not {actual}"
  | returnTypeUnknown => "return type is not a type"
  | blockInputUnknown => "block input is not a type"
  | undefinedMethod name receiver => "undefined method " ++ quoted name ++ s!" for {receiver}"
  | argumentCount method found expected =>
    "wrong number of arguments for " ++ quoted method ++ " " ++ counts found expected
  | argumentType position method expected actual =>
    s!"argument #{position} of " ++ quoted method ++ s!" must be {expected}, not {actual}"
  | expansionTooDeep limit => s!"macro expansion too deep (limit {limit})"
  | invalidExpansion source report => expansionReport source report
  | noGenerator => "no macro backend configured"
  | templateNotText => "macro body must be a single string literal"
  | assigningTo path => s!"assigning to {path}"
  | evaluatingConstant name => s!"evaluating constant {name}"
  | givingBlockTo method => "instantiating " ++ quoted method
  | instantiating owner method args =>
    "instantiating " ++ quoted (s!"{owner}#{method}(" ++ ", ".intercalate args ++ ")")
  | reported text => text

end Problem

inductive Defect where
  | sugarLeft (kind : SugarKind) (text : String) (location : Option Location)
  | emptyTypeUnion
  | emptyConstantPath
  | blockExpected
  | missingOperand (name : String)
  | pointerWithoutElement
  | methodExpected
  | reported (text : String)
  deriving DecidableEq, Repr

def Defect.message : Defect → String
  | sugarLeft kind text location =>
    let place := match location with | some l => l.text | none => "unknown location"
    kind.shape ++ " node " ++ Problem.quoted text
      ++ s!" ({place}) should have been eliminated in normalize"
  | emptyTypeUnion => "empty type union"
  | emptyConstantPath => "empty constant path"
  | blockExpected => "call block is not a block"
  | missingOperand name => "primitive without " ++ Problem.quoted name ++ " argument"
  | pointerWithoutElement => "pointer instance without element type"
  | methodExpected => "method table entry is not a def"
  | reported text => text

end TypeFlow
