import TypeFlow.Guard.Narrowing

/-!
# Guards

A guard is what an expression proves when it is used as a condition: a narrowing for each variable
that it says something about. `both` is what two guards prove together, `either` what is sure when
one of them holds. The guards in force are a stack, innermost first, one for each region of the
program that is entered under a condition: what all of them prove of a variable holds inside the
innermost region.
-/

namespace TypeFlow

abbrev Guard := OrderedMap String Narrowing

namespace Guard

def notNil (name : String) : Guard := .singleton name .notNil

/-- Adds a narrowing to what is proved of a variable; the variable then comes last. -/
def add (guard : Guard) (name : String) (f : Narrowing) : Guard :=
  match guard.get? name with
  | some g => (guard.erase name).insert name (g.conj f)
  | none => guard.insert name f

/-- What two guards prove together. -/
def both : Option Guard → Option Guard → Option Guard
  | none, right => right
  | left, none => left
  | some left, some right =>
    some (right.entries.foldl (fun guard (name, f) => guard.add name f) left)

/-- What is proved when one of two guards holds: nothing, whatever they prove. -/
def either (_left _right : Option Guard) : Option Guard := none

end Guard

/-- Guards in force, innermost first. -/
structure GuardStack where
  frames : List Guard
  deriving DecidableEq, Repr

namespace GuardStack

/-- One region, of which nothing has been proved. -/
def initial : GuardStack := ⟨[∅]⟩

instance : Inhabited GuardStack := ⟨initial⟩

def push (s : GuardStack) (guard : Guard) : GuardStack := ⟨guard :: s.frames⟩

def top? (s : GuardStack) : Option Guard := s.frames.head?

def pop (s : GuardStack) : GuardStack := ⟨s.frames.tail⟩

def depth (s : GuardStack) : Nat := s.frames.length

/-- What is proved of a variable, innermost first. -/
def activeNarrowings (s : GuardStack) (name : String) : List Narrowing :=
  s.frames.filterMap fun frame => frame.get? name

/-- All that is proved of a variable, taken together. -/
def narrowingFor (s : GuardStack) (name : String) : Option Narrowing :=
  match s.activeNarrowings name with
  | [] => none
  | f :: rest => some (rest.foldl Narrowing.conj f)

/-- Takes a guard to hold for the rest of the innermost region. -/
def assume (s : GuardStack) (guard : Guard) : GuardStack :=
  match s.frames with
  | [] => ⟨[guard]⟩
  | top :: rest => ⟨(Guard.both (some top) (some guard)).getD top :: rest⟩

end GuardStack

end TypeFlow
