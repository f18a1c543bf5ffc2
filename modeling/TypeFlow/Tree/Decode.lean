import TypeFlow.Json.Parser
import TypeFlow.Tree.Encode

/-!
# Trees from JSON

`Tree.decode?` reads what `Tree.encode` writes, with some latitude: fields come in any order,
fields of other names are passed over, and a part that may be absent may be left out or `null`. A
part with a default may be left out but is not `null`. No field of the kind, nor a tag or a
location, is given twice. A kind may also be given by its position in the table of tags, and a
record by the array of its parts.
-/

namespace TypeFlow

abbrev Fields := List (String × Json)

namespace Fields

/-- No key of the list is repeated. -/
def areSingle (keys : List String) (fields : Fields) : Bool :=
  keys.all fun key => (fields.filter fun field => field.1 == key).length ≤ 1

variable {α : Type}

def required (fields : Fields) (key : String) (read : Json → Option α) : Option α :=
  match fields.lookup key with
  | some j => read j
  | none => none

/-- A part that may be left out or `null`. -/
def optional (fields : Fields) (key : String) (read : Json → Option α) : Option (Option α) :=
  match fields.lookup key with
  | none | some .null => some none
  | some j => (read j).map some

/-- A part that may be left out. -/
def orElse (fields : Fields) (key : String) (default : α) (read : Json → Option α) : Option α :=
  match fields.lookup key with
  | none => some default
  | some j => read j

end Fields

namespace Json

/-- The parts of a record: an object's fields, or an array's items under the names in order. -/
def record? (names : List String) : Json → Option Fields
  | .object fields => if Fields.areSingle names fields then some fields else none
  | .array items => if items.length ≤ names.length then some (names.zip items) else none
  | _ => none

def list? {α : Type} (read : Json → Option α) : Json → Option (List α)
  | .array items => items.mapM read
  | _ => none

def strings? : Json → Option (List String) := list? string?

def char? : Json → Option Char
  | .string s =>
    match s.toList with
    | [c] => some c
    | _ => none
  | _ => none

def nat32? : Json → Option Nat := natUpTo? (Nat.pow 2 32 - 1)

def int64? (j : Json) : Option Int :=
  match j.int? with
  | some i => if -Nat.pow 2 63 ≤ i ∧ i < Nat.pow 2 63 then some i else none
  | none => none

/-- The name of one of several choices, possibly as the only key of an object that holds nothing. -/
def choice? : Json → Option String
  | .string name => some name
  | .object [(name, .null)] => some name
  | .object [(name, .object [])] => some name
  | _ => none

end Json

/-- The names of a location's parts. -/
def Location.fieldNames : List String := ["file", "line", "column"]

def Location.decode? (j : Json) : Option Location := do
  let fields ← j.record? fieldNames
  let file ← fields.optional "file" Json.string?
  let line ← fields.required "line" Json.nat32?
  let column ← fields.required "column" Json.nat32?
  return ⟨file, line, column⟩

def NumberKind.decode? (j : Json) : Option NumberKind := do
  let name ← j.choice?
  all.find? fun kind => kind.suffix == name

def ShortCircuit.decode? (j : Json) : Option ShortCircuit := do
  let name ← j.choice?
  [.and, .or].find? fun operator => operator.tag == name

def EnumConstant.decode? (j : Json) : Option EnumConstant := do
  let fields ← j.record? ["name", "value"]
  let name ← fields.required "name" Json.string?
  let value ← fields.optional "value" Json.int64?
  return ⟨name, value⟩

section Parts

variable {α : Type} (part : Json → Option α)

def Field.decode? (j : Json) : Option (Field α) := do
  let fields ← j.record? ["name", "type", "ptr"]
  let name ← fields.required "name" Json.string?
  let type ← fields.required "type" part
  let pointers ← fields.orElse "ptr" 0 Json.nat32?
  return ⟨name, type, pointers⟩

def BlockParam.decode? (j : Json) : Option (BlockParam α) := do
  let fields ← j.record? ["name", "inputs"]
  let name ← fields.required "name" Json.string?
  let inputs ← fields.orElse "inputs" [] (Json.list? part)
  return ⟨name, inputs⟩

/-- The construct of a kind with the given fields, its parts read by `part`. -/
def Construct.decodeFields? (fields : Fields) : Kind → Option (Construct α)
  | .nop => some .nop
  | .nilLiteral => some .nilLiteral
  | .boolLiteral => do return .boolLiteral (← fields.required "value" Json.bool?)
  | .charLiteral => do return .charLiteral (← fields.required "value" Json.char?)
  | .numberLiteral => do
    let text ← fields.required "value" Json.string?
    return .numberLiteral text (← fields.required "kind" NumberKind.decode?)
  | .stringLiteral => do return .stringLiteral (← fields.required "value" Json.string?)
  | .symbolLiteral => do return .symbolLiteral (← fields.required "value" Json.string?)
  | .sequence => do return .sequence (← fields.required "expressions" (Json.list? part))
  | .var => do return .var (← fields.required "name" Json.string?)
  | .instanceVar => do return .instanceVar (← fields.required "name" Json.string?)
  | .globalVar => do return .globalVar (← fields.required "name" Json.string?)
  | .path => do
    let names ← fields.required "names" Json.strings?
    return .path names (← fields.orElse "global" false Json.bool?)
  | .declareVar => do
    let name ← fields.required "name" Json.string?
    return .declareVar name (← fields.required "declared_type" part)
  | .assign => do
    let target ← fields.required "target" part
    return .assign target (← fields.required "value" part)
  | .multiAssign => do
    let targets ← fields.required "targets" (Json.list? part)
    return .multiAssign targets (← fields.required "values" (Json.list? part))
  | .conditional => do
    let cond ← fields.required "cond" part
    let onTrue ← fields.optional "then" part
    let onFalse ← fields.optional "else" part
    return .conditional cond onTrue onFalse (← fields.optional "binary" ShortCircuit.decode?)
  | .loop => do
    let cond ← fields.required "cond" part
    let body ← fields.optional "body" part
    return .loop cond body (← fields.orElse "run_once" false Json.bool?)
  | .breakOut => do return .breakOut (← fields.orElse "exps" [] (Json.list? part))
  | .returnFrom => do return .returnFrom (← fields.orElse "exps" [] (Json.list? part))
  | .yieldTo => do return .yieldTo (← fields.orElse "exps" [] (Json.list? part))
  | .call => do
    let receiver ← fields.optional "obj" part
    let name ← fields.required "name" Json.string?
    let args ← fields.orElse "args" [] (Json.list? part)
    return .call receiver name args (← fields.optional "block" part)
  | .block => do
    let params ← fields.orElse "args" [] (Json.list? part)
    return .block params (← fields.optional "body" part)
  | .methodDef => do
    let receiver ← fields.optional "receiver" part
    let name ← fields.required "name" Json.string?
    let params ← fields.orElse "args" [] Json.strings?
    let body ← fields.optional "body" part
    let returnType ← fields.optional "return_type" part
    let blockParam ← fields.optional "block_arg" (BlockParam.decode? part)
    return .methodDef receiver name params body returnType blockParam
  | .macroDef => do
    let receiver ← fields.optional "receiver" part
    let name ← fields.required "name" Json.string?
    let params ← fields.orElse "args" [] Json.strings?
    return .macroDef receiver name params (← fields.optional "body" part)
  | .classDef => do
    let name ← fields.required "name" Json.string?
    let superclass ← fields.optional "superclass" part
    let typeVars ← fields.optional "type_vars" Json.strings?
    let isAbstract ← fields.orElse "abstract" false Json.bool?
    return .classDef name superclass typeVars isAbstract (← fields.optional "body" part)
  | .moduleDef => do
    let name ← fields.required "name" Json.string?
    let typeVars ← fields.optional "type_vars" Json.strings?
    return .moduleDef name typeVars (← fields.optional "body" part)
  | .includeModule => do return .includeModule (← fields.required "name" part)
  | .libDef => do
    let name ← fields.required "name" Json.string?
    let libname ← fields.optional "libname" Json.string?
    return .libDef name libname (← fields.optional "body" part)
  | .funDef => do
    let name ← fields.required "name" Json.string?
    let realName ← fields.required "real_name" Json.string?
    let args ← fields.orElse "args" [] (Json.list? (Field.decode? part))
    let returnType ← fields.optional "return_type" part
    let pointers ← fields.orElse "ptr" 0 Json.nat32?
    return .funDef name realName args returnType pointers
      (← fields.orElse "varargs" false Json.bool?)
  | .aliasDef => do
    let name ← fields.required "name" Json.string?
    let type ← fields.required "type" part
    return .aliasDef name type (← fields.orElse "ptr" 0 Json.nat32?)
  | .structDef => do
    let name ← fields.required "name" Json.string?
    return .structDef name (← fields.orElse "fields" [] (Json.list? (Field.decode? part)))
  | .unionDef => do
    let name ← fields.required "name" Json.string?
    return .unionDef name (← fields.orElse "fields" [] (Json.list? (Field.decode? part)))
  | .enumDef => do
    let name ← fields.required "name" Json.string?
    return .enumDef name (← fields.required "constants" (Json.list? EnumConstant.decode?))
  | .structGet => do return .structGet (← fields.required "name" Json.string?)
  | .structSet => do return .structSet (← fields.required "name" Json.string?)
  | .unionGet => do return .unionGet (← fields.required "name" Json.string?)
  | .unionSet => do return .unionSet (← fields.required "name" Json.string?)
  | .classOfSelf => some .classOfSelf
  | .allocate => some .allocate
  | .eitherValue => do
    let left ← fields.required "left" part
    return .eitherValue left (← fields.required "right" part)
  | .typeUnion => do return .typeUnion (← fields.required "idents" (Json.list? part))
  | .genericInstance => do
    let name ← fields.required "name" part
    return .genericInstance name (← fields.required "type_vars" (Json.list? part))
  | .isA => do
    let object ← fields.required "obj" part
    return .isA object (← fields.required "const" part)
  | .typeOf => do return .typeOf (← fields.required "expressions" (Json.list? part))
  | .pointerOf => do return .pointerOf (← fields.required "var" part)
  | .pointerMalloc => some .pointerMalloc
  | .pointerRealloc => some .pointerRealloc
  | .pointerGetValue => some .pointerGetValue
  | .pointerSetValue => some .pointerSetValue
  | .pointerAdd => some .pointerAdd
  | .pointerCast => some .pointerCast

def Sugar.decodeFields? (fields : Fields) : SugarKind → Option (Sugar α)
  | .and => do
    let left ← fields.required "left" part
    return .and left (← fields.required "right" part)
  | .or => do
    let left ← fields.required "left" part
    return .or left (← fields.required "right" part)
  | .require => do return .require (← fields.required "string" part)
  | .rangeLiteral => do
    let first ← fields.required "from" part
    let last ← fields.required "to" part
    return .rangeLiteral first last (← fields.orElse "exclusive" false Json.bool?)
  | .case => do
    let subject ← fields.required "cond" part
    let clauses ← fields.required "whens" (Json.list? part)
    return .case subject clauses (← fields.optional "else" part)
  | .when => do
    let conds ← fields.required "conds" (Json.list? part)
    return .when conds (← fields.optional "body" part)
  | .regexpLiteral => do return .regexpLiteral (← fields.required "value" Json.string?)
  | .arrayLiteral => do
    let elements ← fields.required "elements" (Json.list? part)
    return .arrayLiteral elements (← fields.optional "of" part)
  | .hashLiteral => do
    let keys ← fields.required "keys" (Json.list? part)
    let values ← fields.required "values" (Json.list? part)
    let keyType ← fields.optional "of_key" part
    return .hashLiteral keys values keyType (← fields.optional "of_value" part)
  | .unless => do
    let cond ← fields.required "cond" part
    let onTrue ← fields.optional "then" part
    return .unless cond onTrue (← fields.optional "else" part)
  | .stringInterpolation => do
    return .stringInterpolation (← fields.required "expressions" (Json.list? part))

end Parts

/-- What a tag says about a tree. -/
inductive TreeTag where
  | plain (kind : Kind)
  | sugar
  deriving DecidableEq, Repr

/-- A tag, or its position in the table of tags, where sugar comes last. -/
def TreeTag.decode? : Json → Option TreeTag
  | .string tag => if tag = "sugar" then some .sugar else (Kind.ofTag? tag).map .plain
  | j => do
    let position ← j.natUpTo? Kind.all.length
    return (Kind.all[position]?.map TreeTag.plain).getD .sugar

/-- A tag of a sugar construct, or its position. -/
def SugarKind.decode? : Json → Option SugarKind
  | .string tag => SugarKind.ofTag? tag
  | j => do
    let position ← j.natUpTo? SugarKind.all.length
    SugarKind.all[position]?

namespace Tree

/-- A tree whose parts are read by `part`. -/
def decodeLayer? (part : Json → Option Tree) : Json → Option Tree
  | .object fields => do
    if !Fields.areSingle ["node", "location"] fields then none
    let location ← Fields.optional fields "location" Location.decode?
    match ← Fields.required fields "node" TreeTag.decode? with
    | .plain kind =>
      if !Fields.areSingle kind.fieldNames fields then none
      return .plain (← Construct.decodeFields? part fields kind) location
    | .sugar =>
      if !Fields.areSingle ["sugar"] fields then none
      let kind ← Fields.required fields "sugar" SugarKind.decode?
      if !Fields.areSingle kind.fieldNames fields then none
      return .sugar (← Sugar.decodeFields? part fields kind) location
  | _ => none

/-- A tree nested at most `fuel` deep. -/
def decodeWithin? : Nat → Json → Option Tree
  | 0, _ => none
  | fuel + 1, j => decodeLayer? (decodeWithin? fuel) j

def decode? (j : Json) : Option Tree := decodeWithin? (j.depth + 1) j

/-- How many arrays and objects may be open at once in what is read of a written tree. -/
def nestingLimit : Nat := 127

/-- How much is read of a written tree: all but the fields of its own location that are passed
over. -/
def scope : Json.Scope :=
  .members fun key =>
    if key = "location" then
      .members fun key => if key ∈ Location.fieldNames then .whole else .form
    else .whole

/-- Reads a tree from JSON text. -/
def ofJson? (text : String) : Option Tree := do
  decode? (← Json.parse? scope nestingLimit text)

end Tree

end TypeFlow
