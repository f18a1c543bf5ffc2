import TypeFlow.Json.Printer
import TypeFlow.Tree.Kind

/-!
# Trees as JSON

A tree is an object: its tag, its fields in the order of `Kind.fieldNames`, then its location. An
absent part is written `null`, but an absent location, file or enum value is left out.
-/

namespace TypeFlow

def Location.encode (l : Location) : Json :=
  .object ((match l.file with | some file => [("file", .string file)] | none => [])
    ++ [("line", .ofNat l.line), ("column", .ofNat l.column)])

def EnumConstant.encode (c : EnumConstant) : Json :=
  .object (("name", .string c.name)
    :: (match c.value with | some value => [("value", .ofInt value)] | none => []))

namespace Json

def strings (names : List String) : Json := .array (names.map .string)

def orNull {α : Type} (f : α → Json) : Option α → Json
  | some a => f a
  | none => .null

end Json

def ShortCircuit.tag : ShortCircuit → String
  | .and => "and"
  | .or => "or"

namespace Tree

/-- The field that holds a location, if there is one. -/
def encodeLocation : Option Location → List (String × Json)
  | some l => [("location", l.encode)]
  | none => []

mutual

def encode : Tree → Json
  | .plain construct location =>
    .object (("node", .string construct.kind.tag)
      :: (encodeFields construct ++ encodeLocation location))
  | .sugar abbreviation location =>
    .object (("node", .string "sugar") :: ("sugar", .string abbreviation.kind.tag)
      :: (encodeSugar abbreviation ++ encodeLocation location))

def encodeList : List Tree → List Json
  | [] => []
  | tree :: rest => tree.encode :: encodeList rest

def encodeOption : Option Tree → Json
  | some tree => tree.encode
  | none => .null

def encodeField : Field Tree → Json
  | ⟨name, type, pointers⟩ =>
    .object [("name", .string name), ("type", type.encode), ("ptr", .ofNat pointers)]

def encodeFieldList : List (Field Tree) → List Json
  | [] => []
  | field :: rest => encodeField field :: encodeFieldList rest

def encodeBlockParam : BlockParam Tree → Json
  | ⟨name, inputs⟩ => .object [("name", .string name), ("inputs", .array (encodeList inputs))]

def encodeBlockOption : Option (BlockParam Tree) → Json
  | some p => encodeBlockParam p
  | none => .null

def encodeFields : Construct Tree → List (String × Json)
  | .nop | .nilLiteral => []
  | .boolLiteral value => [("value", .bool value)]
  | .charLiteral value => [("value", .string (String.singleton value))]
  | .numberLiteral text kind => [("value", .string text), ("kind", .string kind.suffix)]
  | .stringLiteral value => [("value", .string value)]
  | .symbolLiteral value => [("value", .string value)]
  | .sequence items => [("expressions", .array (encodeList items))]
  | .var name => [("name", .string name)]
  | .instanceVar name => [("name", .string name)]
  | .globalVar name => [("name", .string name)]
  | .path names fromRoot => [("names", .strings names), ("global", .bool fromRoot)]
  | .declareVar name type => [("name", .string name), ("declared_type", type.encode)]
  | .assign target value => [("target", target.encode), ("value", value.encode)]
  | .multiAssign targets values =>
    [("targets", .array (encodeList targets)), ("values", .array (encodeList values))]
  | .conditional cond onTrue onFalse operator =>
    [("cond", cond.encode), ("then", encodeOption onTrue), ("else", encodeOption onFalse),
     ("binary", .orNull (fun op => .string op.tag) operator)]
  | .loop cond body runOnce =>
    [("cond", cond.encode), ("body", encodeOption body), ("run_once", .bool runOnce)]
  | .breakOut values => [("exps", .array (encodeList values))]
  | .returnFrom values => [("exps", .array (encodeList values))]
  | .yieldTo values => [("exps", .array (encodeList values))]
  | .call receiver name args block =>
    [("obj", encodeOption receiver), ("name", .string name), ("args", .array (encodeList args)),
     ("block", encodeOption block)]
  | .block params body => [("args", .array (encodeList params)), ("body", encodeOption body)]
  | .methodDef receiver name params body returnType blockParam =>
    [("receiver", encodeOption receiver), ("name", .string name), ("args", .strings params),
     ("body", encodeOption body), ("return_type", encodeOption returnType),
     ("block_arg", encodeBlockOption blockParam)]
  | .macroDef receiver name params body =>
    [("receiver", encodeOption receiver), ("name", .string name), ("args", .strings params),
     ("body", encodeOption body)]
  | .classDef name superclass typeVars isAbstract body =>
    [("name", .string name), ("superclass", encodeOption superclass),
     ("type_vars", .orNull .strings typeVars), ("abstract", .bool isAbstract),
     ("body", encodeOption body)]
  | .moduleDef name typeVars body =>
    [("name", .string name), ("type_vars", .orNull .strings typeVars), ("body", encodeOption body)]
  | .includeModule name => [("name", name.encode)]
  | .libDef name libname body =>
    [("name", .string name), ("libname", .orNull .string libname), ("body", encodeOption body)]
  | .funDef name realName args returnType pointers varargs =>
    [("name", .string name), ("real_name", .string realName),
     ("args", .array (encodeFieldList args)), ("return_type", encodeOption returnType),
     ("ptr", .ofNat pointers), ("varargs", .bool varargs)]
  | .aliasDef name type pointers =>
    [("name", .string name), ("type", type.encode), ("ptr", .ofNat pointers)]
  | .structDef name fields => [("name", .string name), ("fields", .array (encodeFieldList fields))]
  | .unionDef name fields => [("name", .string name), ("fields", .array (encodeFieldList fields))]
  | .enumDef name constants =>
    [("name", .string name), ("constants", .array (constants.map EnumConstant.encode))]
  | .structGet name => [("name", .string name)]
  | .structSet name => [("name", .string name)]
  | .unionGet name => [("name", .string name)]
  | .unionSet name => [("name", .string name)]
  | .classOfSelf | .allocate => []
  | .eitherValue left right => [("left", left.encode), ("right", right.encode)]
  | .typeUnion types => [("idents", .array (encodeList types))]
  | .genericInstance name args => [("name", name.encode), ("type_vars", .array (encodeList args))]
  | .isA object type => [("obj", object.encode), ("const", type.encode)]
  | .typeOf values => [("expressions", .array (encodeList values))]
  | .pointerOf target => [("var", target.encode)]
  | .pointerMalloc | .pointerRealloc | .pointerGetValue | .pointerSetValue | .pointerAdd
  | .pointerCast => []

def encodeSugar : Sugar Tree → List (String × Json)
  | .and left right => [("left", left.encode), ("right", right.encode)]
  | .or left right => [("left", left.encode), ("right", right.encode)]
  | .require string => [("string", string.encode)]
  | .rangeLiteral first last exclusive =>
    [("from", first.encode), ("to", last.encode), ("exclusive", .bool exclusive)]
  | .case subject clauses otherwise =>
    [("cond", subject.encode), ("whens", .array (encodeList clauses)),
     ("else", encodeOption otherwise)]
  | .when conds body => [("conds", .array (encodeList conds)), ("body", encodeOption body)]
  | .regexpLiteral value => [("value", .string value)]
  | .arrayLiteral elements elementType =>
    [("elements", .array (encodeList elements)), ("of", encodeOption elementType)]
  | .hashLiteral keys values keyType valueType =>
    [("keys", .array (encodeList keys)), ("values", .array (encodeList values)),
     ("of_key", encodeOption keyType), ("of_value", encodeOption valueType)]
  | .unless cond onTrue onFalse =>
    [("cond", cond.encode), ("then", encodeOption onTrue), ("else", encodeOption onFalse)]
  | .stringInterpolation parts => [("expressions", .array (encodeList parts))]

end

def toJson (tree : Tree) : String := tree.encode.pretty

end Tree

end TypeFlow
