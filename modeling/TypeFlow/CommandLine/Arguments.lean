/-!
# Command-line arguments

There are two commands, each on one file: `infer` with its options, and `print`. An option is given
at most once, except that `-v` may stand both before and after the command's name. Short options
may be written together, and a path together with its option. After `--` nothing is an option.
-/

namespace TypeFlow

inductive Command where
  | infer (file : String) (settingsFile : Option String) (stats noColor : Bool)
  | print (file : String)
  deriving DecidableEq, Repr

namespace Command

/-- What has been read of the arguments after a command's name. -/
structure Reading where
  isInfer : Bool
  file : Option String := none
  settingsFile : Option String := none
  stats : Bool := false
  noColor : Bool := false
  verbose : Bool := false
  deriving DecidableEq, Repr

namespace Reading

/-- An argument that is no option. -/
def positional? (r : Reading) (arg : String) : Option Reading :=
  if arg.isEmpty || r.file.isSome then none else some { r with file := some arg }

def settings? (r : Reading) (path : String) : Option Reading :=
  if path.isEmpty || !r.isInfer || r.settingsFile.isSome then none
  else some { r with settingsFile := some path }

def verbose? (r : Reading) : Option Reading :=
  if r.verbose then none else some { r with verbose := true }

def stats? (r : Reading) : Option Reading :=
  if !r.isInfer || r.stats then none else some { r with stats := true }

def noColor? (r : Reading) : Option Reading :=
  if !r.isInfer || r.noColor then none else some { r with noColor := true }

/-- The letters after a single dash, and whether a path has to follow them. -/
def short? (r : Reading) : List Char → Option (Reading × Bool)
  | [] => some (r, false)
  | 'v' :: rest => do short? (← r.verbose?) rest
  | ['c'] => some (r, true)
  | 'c' :: '=' :: path => (r.settings? (String.ofList path)).map (·, false)
  | 'c' :: path => (r.settings? (String.ofList path)).map (·, false)
  | _ => none

/-- The name after two dashes, and whether a path has to follow it. -/
def long? (r : Reading) (name : String) : Option (Reading × Bool) :=
  let config := "config="
  if name = "config" then some (r, true)
  else if config.isPrefixOf name then
    (r.settings? (name.drop config.length).toString).map (·, false)
  else if name = "verbose" then r.verbose?.map (·, false)
  else if name = "stats" then r.stats?.map (·, false)
  else if name = "no-color" then r.noColor?.map (·, false)
  else none

/-- An argument before any `--`, and whether a path has to follow it. A single dash is no
option. -/
def argument? (r : Reading) (arg : String) : Option (Reading × Bool) :=
  match arg.toList with
  | '-' :: '-' :: name => r.long? (String.ofList name)
  | '-' :: c :: rest => r.short? (c :: rest)
  | _ => (r.positional? arg).map (·, false)

end Reading

/-- Whether an argument may be the path that an option before it asks for. -/
def isPath (arg : String) : Bool := arg == "-" || !"-".isPrefixOf arg

/-- Reads the arguments after a command's name; `awaitsPath` says whether an option has come
last whose path is still to follow. -/
def read? (r : Reading) (awaitsPath : Bool) : List String → Option Reading
  | [] => if awaitsPath then none else some r
  | arg :: rest =>
    if awaitsPath then
      if isPath arg then
        match r.settings? arg with
        | some r => read? r false rest
        | none => none
      else none
    else if arg = "--" then rest.foldlM Reading.positional? r
    else
      match r.argument? arg with
      | some (r, awaitsPath) => read? r awaitsPath rest
      | none => none

def ofReading? (r : Reading) : Option Command := do
  let file ← r.file
  if r.isInfer then return .infer file r.settingsFile r.stats r.noColor else return .print file

/-- A command's name and what follows it. -/
def named? : List String → Option Command
  | "infer" :: rest => (read? { isInfer := true } false rest).bind ofReading?
  | "print" :: rest => (read? { isInfer := false } false rest).bind ofReading?
  | _ => none

def ofArguments? : List String → Option Command
  | "-v" :: rest | "--verbose" :: rest => named? rest
  | args => named? args

end Command

end TypeFlow
