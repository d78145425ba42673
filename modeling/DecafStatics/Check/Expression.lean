import DecafStatics.Check.State
import DecafStatics.Tree.Arguments

/-!
# Typing expressions

An expression is typed from the leaves up, and its type is left on its node. Where an expression
has no type the reason has been reported already, and nothing more is said about it: an operand,
an index or an argument without a type fits everywhere. A construct that is no expression has no
type either, and nothing is said about it at all.

The type of an operation depends on its operator alone, so an operation with ill-typed operands
still has a type. The same holds for a variable used in the wrong way, whose type is the one that
it was declared with.

## Implementation notes

Each of the rules is given the function that types the parts of the expression, and `typeWithin`
closes the knot over a depth. No node of an expression that has an end lies below itself, so the
size of the tree is depth enough for it; one more is for a handle that names no node.

## Main definitions

* `Check.expression` — the type of an expression
-/

namespace DecafStatics

namespace Check

/-- Reports the node that `id` names if its type is known and is not the one that is wanted. -/
def expect (wanted : Ty) (received : Option Ty) (id : NodeId) : Check Unit :=
  match received with
  | none => pure ()
  | some ty => if ty = wanted then pure () else report (.typeMismatch wanted ty) id

/-- `expect` for a part that may be missing. -/
def expectPart (wanted : Ty) (received : Option Ty) (part : Option NodeId) : Check Unit :=
  match part with
  | none => pure ()
  | some id => expect wanted received id

/-- Types a part of an expression that may be missing. -/
def typePart (typeOf : NodeId → Check (Option Ty)) (part : Option NodeId) : Check (Option Ty) :=
  match part with
  | none => pure none
  | some id => typeOf id

/-- Finds what the name of the node denotes at the current place and links the node to it. An
unknown name is reported. -/
def resolve (id : NodeId) (name : String) : Check (Option Symbol) := do
  let s ← get
  match s.table.lookup name s.level with
  | none =>
    report (.undeclaredIdentifier name) id
    return none
  | some symbolId =>
    let symbol ← s.table.symbol symbolId
    update id fun n => { n with symbol := some symbolId }
    return some symbol

/-- Types an operation. -/
def operation (typeOf : NodeId → Check (Option Ty)) (n : Node) : Check (Option Ty) := do
  match n.operator with
  | none => throw .missingOperator
  | some op =>
    let left ← typePart typeOf n.first
    let right ← typePart typeOf n.second
    match op.cls.operand.wanted left with
    | none => pure ()
    | some wanted =>
      expectPart wanted left n.first
      expectPart wanted right n.second
    return some op.cls.result

/-- Types a variable, or the element of an array if there is an index. -/
def variableUse (typeOf : NodeId → Check (Option Ty)) (id : NodeId) (n : Node) :
    Check (Option Ty) := do
  let index ← typePart typeOf n.first
  match ← resolve id n.text with
  | none => return none
  | some symbol =>
    let used : SymbolKind := if n.first.isSome then .array else .scalar
    if symbol.kind ≠ used then report (.kindMismatch n.text used symbol.kind) id
    expectPart .int index n.first
    return some symbol.ty

/-- Types a call. Its arguments are compared with the parameters only if all of them have a
type. -/
def call (typeOf : NodeId → Check (Option Ty)) (id : NodeId) (n : Node) : Check (Option Ty) := do
  let arguments ← (← get).tree.siblings n.first
  let types ← arguments.mapM typeOf
  match ← resolve id n.text with
  | none => return none
  | some symbol =>
    if symbol.kind.isCallable then
      if types.all Option.isSome then
        let tree := (← get).tree
        unless ← tree.argumentsFit symbol.params n.first do
          let parameters ← tree.siblings symbol.params
          report (.parameterMismatch n.text parameters.length arguments.length) id
      return some symbol.ty
    else
      report (.kindMismatch n.text .method symbol.kind) id
      return none

/-- The type of the node `n` as an expression; other constructs have none. -/
def typeByKind (typeOf : NodeId → Check (Option Ty)) (id : NodeId) (n : Node) :
    Check (Option Ty) :=
  match n.kind with
  | .intConstant => pure (some .int)
  | .boolConstant => pure (some .bool)
  | .stringConstant => pure (some .string)
  | .target | .reference => variableUse typeOf id n
  | .operation => operation typeOf n
  | .call => call typeOf id n
  | .argument => typePart typeOf n.first
  | .program | .package | .externDecl | .externType | .methodDecl | .parameter | .variableDecl
  | .block | .assignment | .conditional | .thenBranch | .elseBranch | .loop | .returnValue
  | .breakLoop | .continueLoop => pure none

/-- Types the expression that `id` names, down to `depth`, and leaves the type on its node. -/
def typeWithin : Nat → NodeId → Check (Option Ty)
  | 0, _ => throw .endless
  | depth + 1, id => do
    let ty ← typeByKind (typeWithin depth) id (← node id)
    if ty.isSome then update id fun n => { n with ty := ty }
    return ty

/-- The type of the expression that `id` names, if it has one. -/
def expression (id : NodeId) : Check (Option Ty) := do
  typeWithin ((← get).tree.size + 1) id

end Check

end DecafStatics
