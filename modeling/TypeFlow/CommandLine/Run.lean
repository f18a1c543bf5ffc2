import TypeFlow.CommandLine.Arguments
import TypeFlow.CommandLine.Settings
import TypeFlow.Inference.JsonToolchain
import TypeFlow.Inference.Run

/-!
# The commands

`infer` shows the type of every top-level statement of a tree, `print` shows the tree as source
text. What the commands need of the system is in a `Host`, so that they can be run on files that
only exist in memory.
-/

namespace TypeFlow

/-- Files and a clock. -/
structure Host (m : Type → Type) where
  /-- The text of a file, or what the system says is wrong with it. -/
  contents : String → m (Except String String)
  /-- Nanoseconds since some fixed moment. -/
  now : m Nat

/-- What a command writes, and its exit status. -/
structure Outcome where
  code : Nat := 0
  output : String := ""
  errors : String := ""
  deriving DecidableEq, Repr

namespace CommandLine

/-! ### Colors -/

/-- What ends every style. -/
def resetStyle : String := "\x1b[0m"

/-- A text in a style, which begins again after each reset in the text itself. -/
def styled (color : Bool) (style text : String) : String :=
  if color then
    let start := "\x1b[" ++ style ++ "m"
    start ++ text.replace resetStyle (resetStyle ++ start) ++ resetStyle
  else text

def green (color : Bool) (text : String) : String := styled color "32" text

def red (color : Bool) (text : String) : String := styled color "31" text

def bold (color : Bool) (text : String) : String := styled color "1" text

/-- A command that could not do its work. -/
def failed (color : Bool) (reason : String) : Outcome :=
  { code := 1, errors := styled color "1;31" "error:" ++ " " ++ reason ++ "\n" }

def usage : Outcome :=
  { code := 2, errors := "usage: infer FILE [--config FILE] [--stats] [--no-color] | print FILE\n" }

/-! ### Durations -/

/-- A number of thousandths as a decimal, without zeros at the end. -/
def thousandths (n : Nat) : String :=
  let frac := (Text.padLeft 3 (n % 1000)).toList.map fun c => if c = ' ' then '0' else c
  let frac := (frac.reverse.dropWhile (· == '0')).reverse
  toString (n / 1000) ++ (if frac.isEmpty then "" else "." ++ String.ofList frac)

def duration (nanos : Nat) : String :=
  if nanos < 1000 then s!"{nanos}ns"
  else if nanos < 1000000 then thousandths nanos ++ "µs"
  else if nanos < 1000000000 then thousandths (nanos / 1000) ++ "ms"
  else thousandths (nanos / 1000000) ++ "s"

/-- How long each phase of a run took. -/
structure PhaseTimes where
  lowering : Nat
  walking : Nat
  constants : Nat
  settling : Nat

def statsText (color : Bool) (times : PhaseTimes) (s : RunStats) : String :=
  bold color "Inference statistics" ++ "\n"
    ++ "  lower:           " ++ duration times.lowering ++ "\n"
    ++ "  traverse:        " ++ duration times.walking ++ "\n"
    ++ "  constants:       " ++ duration times.constants ++ "\n"
    ++ "  fix empty types: " ++ duration times.settling ++ "\n"
    ++ s!"  {s.expressions} expressions, {s.nodes} nodes, {s.types} types, "
    ++ s!"{s.fixedNodes} untyped nodes fixed\n"

/-! ### Commands -/

section

variable {m : Type → Type} [Monad m] (host : Host m)

def loadTree (file : String) : m (Except String Tree) := do
  match ← host.contents file with
  | .error reason => return .error s!"failed to read {file}: {reason}"
  | .ok text =>
    match Tree.ofJson? text with
    | some tree => return .ok tree
    | none => return .error s!"in {file}: invalid syntax tree JSON"

def loadSettings : Option String → m (Except String Settings)
  | none => return .ok {}
  | some file => do
    match ← host.contents file with
    | .error reason => return .error s!"failed to read config {file}: {reason}"
    | .ok text =>
      match Settings.ofText? text with
      | some settings => return .ok settings
      | none => return .error s!"failed to parse config {file}"

/-- The settings of a file as the options of the command change them. -/
def withFlags (settings : Settings) (stats noColor : Bool) : Settings :=
  { settings with
    options := { settings.options with stats := settings.options.stats || stats }
    color := settings.color && !noColor }

def topLevelStatements : Tree → List Tree
  | .plain (.sequence items) _ => items
  | tree => [tree]

/-- The line for a statement. -/
def statementLine (color showSource : Bool) (source : Tree) (type : Option String) : String :=
  (if showSource then source.text ++ " : " else "") ++ green color (type.getD "?") ++ "\n"

def statementLines (color showSource : Bool) (s : Session) (sources : List Tree) (root : ExprId) :
    String :=
  String.join <| (sources.zip (s.program.statements root)).map fun (source, id) =>
    statementLine color showSource source (s.typeNameOf id)

/-- Runs a phase and says how many nanoseconds it took. -/
def timed {α : Type} (phase : Phase α) : ExceptT Failure (StateT Session m) (α × Nat) := do
  let start ← host.now
  let a ← ExceptT.mk fun s => return phase s
  let stop ← host.now
  return (a, stop - start)

/-- Runs the phases of inference one by one. -/
def inferTimed (setting : Setting) (tree : Tree) :
    ExceptT Failure (StateT Session m) (Inferred × PhaseTimes) := do
  let (root, lowering) ← timed host (Phase.lower setting tree)
  let (_, walking) ← timed host (Phase.walk setting root)
  let (_, constants) ← timed host (Phase.constants setting)
  let (inferred, settling) ← timed host (Phase.settle setting.options root)
  return (inferred, { lowering, walking, constants, settling })

def inferTree (color : Bool) (settings : Settings) (tree : Tree) : m Outcome := do
  let setting : Setting := ⟨Toolchain.json, settings.options⟩
  match ← (inferTimed host setting tree).run.run {} with
  | (.ok (inferred, times), s) =>
    let lines := statementLines color settings.showSource s (topLevelStatements tree) inferred.root
    let stats := match inferred.stats with
      | some stats => statsText color times stats
      | none => ""
    return { output := lines, errors := stats }
  | (.error (.error e), _) => return { code := 1, errors := red color (e.render none) }
  | (.error .exhausted, _) => return failed color "the program is nested too deeply"

def inferCommand (color : Bool) (file : String) (settingsFile : Option String)
    (stats noColor : Bool) : m Outcome := do
  match ← loadSettings host settingsFile with
  | .error reason => return failed color reason
  | .ok settings =>
    let settings := withFlags settings stats noColor
    let color := color && settings.color
    match ← loadTree host file with
    | .error reason => return failed color reason
    | .ok tree => inferTree host color settings tree

def printCommand (color : Bool) (file : String) : m Outcome := do
  match ← loadTree host file with
  | .error reason => return failed color reason
  | .ok tree => return { output := tree.text ++ "\n" }

/-- Runs the program on its arguments; `color` says whether output is colored unless that is
switched off. -/
def run (color : Bool) (args : List String) : m Outcome :=
  match Command.ofArguments? args with
  | some (.infer file settingsFile stats noColor) =>
    inferCommand host color file settingsFile stats noColor
  | some (.print file) => printCommand host color file
  | none => return usage

end

end CommandLine

end TypeFlow
