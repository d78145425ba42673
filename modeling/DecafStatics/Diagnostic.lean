import DecafStatics.Position
import DecafStatics.Symbol
import DecafStatics.Text.Quoted

/-!
# Diagnostics

What can be wrong with a program, and how it is reported. A `Problem` is the cause, a
`Diagnostic` the cause together with the place that is blamed for it. Every problem has one
message, and most have a hint that puts the same fact into advice.

Messages quote names, so that an odd character in a name is seen. Hints show names as they are.
-/

namespace DecafStatics

/-- What is wrong. -/
inductive Problem where
  /-- `name` is declared a second time at `level`. -/
  | duplicateDeclaration (name : String) (level : Nat)
  /-- No scope in reach declares `name`. -/
  | undeclaredIdentifier (name : String)
  /-- A call of `method` passes `received` arguments that do not fit its parameters. -/
  | parameterMismatch (method : String) (expected received : Nat)
  /-- One type is needed and another is found. -/
  | typeMismatch (expected received : Ty)
  /-- `name` denotes one sort of thing and is used as another. -/
  | kindMismatch (name : String) (expected found : SymbolKind)
  /-- The array `name` would have no elements. -/
  | invalidArraySize (name : String) (size : Int32)
  /-- `statement` stands outside of every loop. -/
  | outsideLoop (statement : String)
  /-- A value is returned from `method` where there should be none, or the other way round. -/
  | invalidReturn (method : String)
  /-- The program was handed over a second time. -/
  | rootAlreadySet
  deriving DecidableEq

namespace Problem

/-- The name under which tools know the problem. -/
def label : Problem → String
  | duplicateDeclaration .. => "DuplicateDeclaration"
  | undeclaredIdentifier .. => "UndeclaredIdentifier"
  | parameterMismatch .. => "ParameterMismatch"
  | typeMismatch .. => "TypeMatchError"
  | kindMismatch .. => "SubtypeMismatch"
  | invalidArraySize .. => "InvalidArraySize"
  | outsideLoop .. => "OutsideLoop"
  | invalidReturn .. => "InvalidReturn"
  | rootAlreadySet => "RootAlreadySet"

/-- The message, with names quoted. -/
def message : Problem → String
  | duplicateDeclaration name level =>
    s!"name {Text.quoted name} already declared at level {level}"
  | undeclaredIdentifier name => s!"identifier {Text.quoted name} not declared"
  | parameterMismatch method expected received =>
    s!"call to {Text.quoted method} does not match its parameters: " ++
      s!"expected {expected} arguments, received {received}"
  | typeMismatch expected received =>
    s!"types do not match: expected {expected.label}, received {received.label}"
  | kindMismatch name expected found =>
    s!"{Text.quoted name} used as {expected.tag} but declared as {found.tag}"
  | invalidArraySize name size => s!"array {Text.quoted name} declared with size {size.toInt}"
  | outsideLoop statement => s!"{statement} statement outside of a loop"
  | invalidReturn method => s!"invalid return statement in method {Text.quoted method}"
  | rootAlreadySet => "program root already set for this compilation"

/-- Advice on the problem, with names as they are. A call whose arguments are of the right number
is told that their types are at fault. -/
def hint : Problem → Option String
  | duplicateDeclaration name level =>
    some s!"`{name}` is already declared at level {level}, rename one of them"
  | undeclaredIdentifier name => some s!"`{name}` is not declared in any enclosing scope"
  | parameterMismatch method expected received =>
    if expected = received then
      some s!"Argument types of the call to `{method}` do not match its parameters"
    else
      some s!"`{method}` expects {expected} arguments, received {received}"
  | typeMismatch expected received =>
    some s!"Expected type `{expected.label}`, received `{received.label}`"
  | kindMismatch name expected found =>
    some s!"`{name}` is used as {expected.phrase} but declared as {found.phrase}"
  | invalidArraySize .. => some "Array sizes must be at least 1"
  | outsideLoop statement => some s!"`{statement}` can only appear inside a while loop"
  | invalidReturn method =>
    some s!"The return statement does not agree with the return type of `{method}`"
  | rootAlreadySet => none

/-- The text of the hint, which is empty where there is none. -/
def hintText (p : Problem) : String := p.hint.getD ""

end Problem

/-- A problem and the place that is blamed for it. -/
structure Diagnostic where
  problem : Problem
  position : Position
  deriving DecidableEq

/-- The message, and the position in parentheses. -/
def Diagnostic.display (d : Diagnostic) : String := s!"{d.problem.message} ({d.position.display})"

end DecafStatics
