import TypeFlow.Diagnostic.Problem
import TypeFlow.Ids

/-!
# Errors

An error of inference, with the place where it arose. A type error may have a cause: the error
below it in a chain of contexts such as an assignment or the body of a method. `Diagnostic.render`
reports the whole chain, with the lines of source it points into.
-/

namespace TypeFlow

inductive Diagnostic where
  | syntaxError (message : String) (location : Option Location)
  | typeError (problem : Problem) (expr : Option ExprId) (location : Option Location)
      (cause : Option Diagnostic)
  | frozenType (node : NodeId) (frozen rejected : String) (location : Option Location)
  | internal (defect : Defect) (location : Option Location)

/-- The four families of errors. -/
inductive DiagnosticFamily where
  | syntaxError | typeError | frozenType | internal
  deriving DecidableEq, Repr

namespace Diagnostic

instance : Inhabited Diagnostic := ⟨.syntaxError "" none⟩

def family : Diagnostic → DiagnosticFamily
  | syntaxError .. => .syntaxError
  | typeError .. => .typeError
  | frozenType .. => .frozenType
  | internal .. => .internal

def message : Diagnostic → String
  | syntaxError message _ => message
  | typeError problem _ _ _ => problem.message
  | frozenType _ frozen rejected _ => s!"type must be {frozen}, not {rejected}"
  | internal defect _ => "Bug: " ++ defect.message

def location : Diagnostic → Option Location
  | syntaxError _ location => location
  | typeError _ _ location _ => location
  | frozenType _ _ _ location => location
  | internal _ location => location

def cause : Diagnostic → Option Diagnostic
  | typeError _ _ _ cause => cause
  | _ => none

def isInternal : Diagnostic → Bool
  | internal .. => true
  | _ => false

def isFrozenType : Diagnostic → Bool
  | frozenType .. => true
  | _ => false

/-- The errors below this one, outermost first. -/
def causes : Diagnostic → List Diagnostic
  | typeError _ _ _ (some inner) => inner :: inner.causes
  | _ => []

/-- The innermost error of the chain. -/
def innermost : Diagnostic → Diagnostic
  | typeError _ _ _ (some inner) => inner.innermost
  | e => e

/-- Places a conflict of frozen types that has no place yet. -/
def placedAt (place : Option Location) : Diagnostic → Diagnostic
  | frozenType node frozen rejected none => frozenType node frozen rejected place
  | e => e

/-- The line of source at a location, with a mark under its column. -/
def excerpt (location : Option Location) (source : Option String) : String :=
  match location, source with
  | some l, some source =>
    match l.line with
    | 0 => ""
    | line + 1 =>
      match (Text.lines source)[line]? with
      | some text => "\n" ++ text ++ "\n" ++ Text.copies (l.column - 1) ' ' ++ "^\n"
      | none => ""
  | _, _ => ""

/-- The headline of an error and the line of source at its place. -/
def heading (source : Option String) (e : Diagnostic) : String :=
  (match e.location with
    | some l => "Error in " ++ l.text ++ ": "
    | none => "Error: ") ++ e.message ++ "\n" ++ excerpt e.location source

def render (source : Option String) (e : Diagnostic) : String :=
  "\n".intercalate ((e :: e.causes).map (heading source))

end Diagnostic

end TypeFlow
