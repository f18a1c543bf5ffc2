import TypeFlow.Text
import TypeFlow.Tree.Kind

/-!
# Trees as source text

`Tree.textAt` writes a tree as the surface syntax does, at a depth of indentation that counts for
every line but the first: bodies of constructs come on lines of their own, two spaces deeper.
`Tree.text` is a tree on its own, without white space at its ends. The text is for readers; it is
not parsed back.
-/

namespace TypeFlow

namespace Layout

def indentation (depth : Nat) : String := Text.copies (2 * depth) ' '

/-- Quotes inside a string literal are escaped, nothing else. -/
def escapeQuotes (s : String) : String :=
  String.ofList (s.toList.flatMap fun c => if c = '"' then ['\\', '"'] else [c])

/-- A character literal, without its quotes. -/
def charText (c : Char) : String :=
  if c = '\t' then "\\t"
  else if c = '\n' then "\\n"
  else if c = '\r' then "\\r"
  else if c = '\x00' then "\\0"
  else String.singleton c

def stars (pointers : Nat) : String := Text.copies pointers '*'

def commas (parts : List String) : String := ", ".intercalate parts

/-- Whether a method's name starts like a word; the others are operators. -/
def isWord (name : String) : Bool :=
  match name.toList with
  | c :: _ => c.isAlpha || c == '_'
  | [] => false

def keyword (word : String) (values : List String) : String :=
  if values.isEmpty then word else word ++ " " ++ commas values

def binary (left operator right : String) : String := left ++ " " ++ operator ++ " " ++ right

def typeVars : Option (List String) → String
  | some names => "(" ++ commas names ++ ")"
  | none => ""

/-- The receiver of a call by name; a call there is put in parentheses. -/
def receiver (text : String) (isCall : Bool) : String :=
  (if isCall then "(" ++ text ++ ")" else text) ++ "."

/-- A name and its arguments: a setter `x=` is written as an assignment, and the parentheses of a
call with a receiver and without arguments are left out. -/
def callByName (hasReceiver : Bool) (name : String) (args : List String) : String :=
  match Text.beforeLast? '=' name with
  | some setter =>
    if setter = "" then plain else setter ++ " = " ++ commas args
  | none => plain
where
  plain := if hasReceiver && args.isEmpty then name else name ++ "(" ++ commas args ++ ")"

/-- A call without its block. The receiver comes with whether it is a call itself. -/
def call (object : Option (String × Bool)) (name : String) (args : List String) : String :=
  match object with
  | none => callByName false name args
  | some (text, isCall) =>
    if name = "[]" then text ++ "[" ++ commas args ++ "]"
    else
      match args with
      | [index, value] =>
        if name = "[]=" then text ++ "[" ++ index ++ "] = " ++ value
        else receiver text isCall ++ callByName true name args
      | [] =>
        if isWord name then receiver text isCall ++ callByName true name args
        else (Text.beforeLast? '@' name).getD name ++ "(" ++ text ++ ")"
      | [arg] =>
        if isWord name then receiver text isCall ++ callByName true name args
        else binary text name arg
      | _ => receiver text isCall ++ callByName true name args

/-- The lines of a declaration between its head and its `end`. -/
def members (depth : Nat) (head : String) (lines : List String) : String :=
  head ++ "\n" ++ String.join (lines.map fun line => indentation (depth + 1) ++ line ++ "\n")
    ++ indentation depth ++ "end"

/-- The branch after `else`, whose own line starts with `margin`, if there is one. -/
def elseClause (margin : String) (present : Bool) (body : String) : String :=
  if present then margin ++ "else\n" ++ body else ""

def enumConstant (c : EnumConstant) : String :=
  match c.value with
  | some value => c.name ++ " = " ++ toString value
  | none => c.name

end Layout

namespace Tree

open Layout

def isCall : Tree → Bool
  | plain (.call ..) _ => true
  | _ => false

/-- The value of a string literal. -/
def literalText? : Tree → Option String
  | plain (.stringLiteral value) _ => some value
  | _ => none

mutual

def textAt (depth : Nat) : Tree → String
  | .plain construct _ => constructText depth construct
  | .sugar abbreviation _ => sugarText depth abbreviation

def texts (depth : Nat) : List Tree → List String
  | [] => []
  | tree :: rest => tree.textAt depth :: texts depth rest

/-- The receiver of a call. -/
def objectText (depth : Nat) : Option Tree → Option (String × Bool)
  | some tree => some (tree.textAt depth, tree.isCall)
  | none => none

/-- A part between two texts, or nothing. -/
def between (depth : Nat) (before after : String) : Option Tree → String
  | some tree => before ++ tree.textAt depth ++ after
  | none => ""

/-- A body on lines of its own, one step deeper; a sequence writes its own lines. -/
def bodyText (depth : Nat) : Option Tree → String
  | some tree =>
    if tree.isSequence then tree.textAt (depth + 1)
    else indentation (depth + 1) ++ tree.textAt (depth + 1) ++ "\n"
  | none => ""

/-- The head of a loop whose body comes first. -/
def runOnceText (depth : Nat) : Option Tree → String
  | some tree =>
    if tree.isSequence then
      "begin\n" ++ tree.textAt (depth + 1) ++ indentation depth ++ "end while "
    else tree.textAt depth ++ " while "
  | none => "begin\nend while "

def fieldText (depth : Nat) : Field Tree → String
  | ⟨name, type, pointers⟩ => name ++ " : " ++ type.textAt depth ++ stars pointers

def fieldTexts (depth : Nat) : List (Field Tree) → List String
  | [] => []
  | field :: rest => fieldText depth field :: fieldTexts depth rest

def blockParamText (depth : Nat) : BlockParam Tree → String
  | ⟨name, inputs⟩ =>
    "&" ++ name ++ (if inputs.isEmpty then "" else " : " ++ commas (texts depth inputs) ++ " ->")

def blockParamTexts (depth : Nat) : Option (BlockParam Tree) → List String
  | some p => [blockParamText depth p]
  | none => []

def constructText (depth : Nat) : Construct Tree → String
  | .nop => ""
  | .nilLiteral => "nil"
  | .boolLiteral value => if value then "true" else "false"
  | .charLiteral value => "\x27" ++ charText value ++ "\x27"
  | .numberLiteral text kind => if kind.isDefault then text else text ++ "_" ++ kind.suffix
  | .stringLiteral value => "\"" ++ escapeQuotes value ++ "\""
  | .symbolLiteral value => ":" ++ value
  | .sequence items =>
    String.join ((texts depth items).map fun item => indentation depth ++ item ++ "\n")
  | .var name => name
  | .instanceVar name => name
  | .globalVar name => name
  | .path names fromRoot =>
    (if fromRoot && !names.isEmpty then "::" else "") ++ "::".intercalate names
  | .declareVar name type => name ++ " :: " ++ type.textAt depth
  | .assign target value =>
    target.textAt depth ++ " = "
      ++ (if value.isSequence then
            "begin\n" ++ value.textAt (depth + 1) ++ indentation depth ++ "end"
          else value.textAt depth)
  | .multiAssign targets values =>
    commas (texts depth targets) ++ " = " ++ commas (texts depth values)
  | .conditional cond onTrue onFalse _ =>
    "if " ++ cond.textAt depth ++ "\n" ++ bodyText depth onTrue
      ++ elseClause (indentation depth) onFalse.isSome (bodyText depth onFalse)
      ++ indentation depth ++ "end"
  | .loop cond body runOnce =>
    if runOnce then runOnceText depth body ++ cond.textAt depth
    else "while " ++ cond.textAt depth ++ "\n" ++ bodyText depth body ++ indentation depth ++ "end"
  | .breakOut values => keyword "break" (texts depth values)
  | .returnFrom values => keyword "return" (texts depth values)
  | .yieldTo values => keyword "yield" (texts depth values)
  | .call object name args block =>
    Layout.call (objectText depth object) name (texts depth args) ++ between depth " " "" block
  | .block params body =>
    "do" ++ (if params.isEmpty then "" else " |" ++ commas (texts depth params) ++ "|") ++ "\n"
      ++ bodyText depth body ++ indentation depth ++ "end"
  | .methodDef owner name params body returnType blockParam =>
    let allParams := params ++ blockParamTexts depth blockParam
    "def " ++ between depth "" "." owner ++ name
      ++ (if params.isEmpty && blockParam.isNone then "" else "(" ++ commas allParams ++ ")")
      ++ between depth " : " "" returnType ++ "\n" ++ bodyText depth body ++ indentation depth
      ++ "end"
  | .macroDef owner name params body =>
    "macro " ++ between depth "" "." owner ++ name
      ++ (if params.isEmpty then "" else "(" ++ commas params ++ ")") ++ "\n"
      ++ bodyText depth body ++ indentation depth ++ "end"
  | .classDef name superclass vars isAbstract body =>
    (if isAbstract then "abstract " else "") ++ "class " ++ name ++ typeVars vars
      ++ between depth " < " "" superclass ++ "\n" ++ bodyText depth body ++ indentation depth
      ++ "end"
  | .moduleDef name vars body =>
    "module " ++ name ++ typeVars vars ++ "\n" ++ bodyText depth body ++ indentation depth ++ "end"
  | .includeModule name => "include " ++ name.textAt depth
  | .libDef name libname body =>
    "lib " ++ name ++ (match libname with | some l => "(\x27" ++ l ++ "\x27)" | none => "") ++ "\n"
      ++ bodyText depth body ++ indentation depth ++ "end"
  | .funDef name realName args returnType pointers varargs =>
    "fun " ++ name ++ (if name = realName then "" else " = " ++ realName)
      ++ (if args.isEmpty then ""
          else "(" ++ commas (fieldTexts depth args) ++ (if varargs then ", ..." else "") ++ ")")
      ++ between depth " : " (stars pointers) returnType
  | .aliasDef name type pointers =>
    "type " ++ name ++ " : " ++ type.textAt depth ++ stars pointers
  | .structDef name fields => members depth ("struct " ++ name) (fieldTexts (depth + 1) fields)
  | .unionDef name fields => members depth ("union " ++ name) (fieldTexts (depth + 1) fields)
  | .enumDef name constants => members depth ("enum " ++ name) (constants.map enumConstant)
  | .structGet name => "@" ++ name
  | .unionGet name => "@" ++ name
  | .structSet name => "@" ++ name ++ " = value"
  | .unionSet name => "@" ++ name ++ " = value"
  | .classOfSelf => "class()"
  | .allocate => "allocate()"
  | .eitherValue left right => binary (left.textAt depth) "or" (right.textAt depth)
  | .typeUnion types => " | ".intercalate (texts depth types)
  | .genericInstance name args => name.textAt depth ++ "(" ++ commas (texts depth args) ++ ")"
  | .isA object type => object.textAt depth ++ ".is_a?(" ++ type.textAt depth ++ ")"
  | .typeOf values => "<type_merge>(" ++ commas (texts depth values) ++ ")"
  | .pointerOf target => target.textAt depth ++ ".ptr"
  | .pointerMalloc => "<pointer_malloc>"
  | .pointerRealloc => "<pointer_realloc>"
  | .pointerGetValue => "<pointer_get_value>"
  | .pointerSetValue => "<pointer_set_value>"
  | .pointerAdd => "<pointer_add>"
  | .pointerCast => "<pointer_cast>"

/-- The parts of an interpolated string: literal text as it is, other values in marked braces. -/
def partTexts (depth : Nat) : List Tree → List String
  | [] => []
  | tree :: rest =>
    (match tree.literalText? with
      | some value => escapeQuotes value
      | none => "#\x7b" ++ tree.textAt depth ++ "\x7d") :: partTexts depth rest

def sugarText (depth : Nat) : Sugar Tree → String
  | .and left right => binary (left.textAt depth) "&&" (right.textAt depth)
  | .or left right => binary (left.textAt depth) "||" (right.textAt depth)
  | .require string => "require " ++ string.textAt depth
  | .rangeLiteral first last exclusive =>
    first.textAt depth ++ (if exclusive then "..." else "..") ++ last.textAt depth
  | .case subject clauses otherwise =>
    "case " ++ subject.textAt depth ++ "\n" ++ String.join (texts depth clauses)
      ++ elseClause "" otherwise.isSome (bodyText depth otherwise) ++ "end"
  | .when conds body => "when " ++ commas (texts depth conds) ++ "\n" ++ bodyText depth body
  | .regexpLiteral value => "/" ++ value ++ "/"
  | .arrayLiteral elements elementType =>
    "[" ++ commas (texts depth elements) ++ "]" ++ between depth " of " "" elementType
  | .hashLiteral keys values keyType valueType =>
    "\x7b" ++ commas (((texts depth keys).zip (texts depth values)).map fun (key, value) =>
        key ++ " => " ++ value) ++ "\x7d"
      ++ (if keyType.isSome && valueType.isSome then
            between depth " of " "" keyType ++ between depth " => " "" valueType
          else "")
  | .unless cond onTrue onFalse =>
    "unless " ++ cond.textAt depth ++ "\n" ++ bodyText depth onTrue
      ++ elseClause (indentation depth) onFalse.isSome (bodyText depth onFalse)
      ++ indentation depth ++ "end"
  | .stringInterpolation parts => "\"" ++ String.join (partTexts depth parts) ++ "\""

end

/-- A tree on its own. -/
def text (tree : Tree) : String := Text.trim (tree.textAt 0)

end Tree

end TypeFlow
