import DecafStatics.Check.Declaration
import DecafStatics.Check.Expression

/-!
# Checking declarations and statements

The walk over a program. A block opens a scope and gives its words of storage back when it ends;
a method opens a scope and a frame of its own, and the largest extent of that frame is what the
method needs. Loops are counted, so that `break` and `continue` are known to stand inside of one,
and the method around a `return` says what it has to return.

## Implementation notes

Each of the rules is given the function that visits the constructs inside, and `statementWithin`
closes the knot over a depth, as `typeWithin` does for expressions. The construct that stands in
the place of a body is visited alone, without its siblings.

The rules for blocks and for methods have one more parameter: what is done with the words that a
block held, and how a parameter is declared.

After a method the walk is in no method, also where the method stood inside of another one.

## Main definitions

* `Check.statement` — checking one construct
* `Check.statements` — checking a chain of constructs
-/

namespace DecafStatics.Check

/-- Visits a construct that may be missing. -/
def visitPart (visit : NodeId → Check Unit) (part : Option NodeId) : Check Unit :=
  match part with
  | none => pure ()
  | some id => visit id

/-- Checks the condition of a loop or a branch. -/
def condition (part : Option NodeId) : Check Unit :=
  match part with
  | none => pure ()
  | some id => do expect .bool (← expression id) id

/-- What the variable `name` is and how many words it takes up, given its length if it is an
array. An array has at least one element. -/
def variableShape (name : String) (length : Option Int32) : Except Problem (SymbolKind × Nat) :=
  match length with
  | none => .ok (.scalar, 1)
  | some length =>
    if length < 1 then .error (.invalidArraySize name length)
    else .ok (.array, length.toInt.toNat)

/-- Declares a variable and checks its initial value. Of an array that would have no elements
nothing but its length is checked. -/
def variableDecl (id : NodeId) (n : Node) : Check Unit := do
  let ty ← declaredType n
  let length ← n.first.mapM node
  match variableShape n.text (length.map Node.value) with
  | .error problem => report problem id
  | .ok (kind, size) =>
    declareStored id n.text ty kind size
    match n.second with
    | none => pure ()
    | some value => expect ty (← expression value) value

/-- Gives words of storage back to the current frame. -/
def giveBack (words : Nat) : Check Unit :=
  modify fun s => { s with frame := { s.frame with offset := s.frame.offset - words } }

/-- Checks a block, which is a scope, and has `settle` deal with the words of storage that its
symbols held. -/
def blockWith (settle : Nat → Check Unit) (visit : NodeId → Check Unit) (n : Node) :
    Check Unit := do
  openScope
  eachSibling n.first visit
  eachSibling n.second visit
  settle (← closeScope)

/-- Checks a block. -/
def block (visit : NodeId → Check Unit) (n : Node) : Check Unit := blockWith giveBack visit n

/-- Has `declare` declare the parameters of a method, and checks its body. -/
def methodInsideWith (declare visit : NodeId → Check Unit) (n : Node) (ty : Ty) : Check Unit := do
  let parameters ← (← get).tree.siblings n.first
  parameters.forM declare
  modify fun s => { s with method := some ⟨n.text, ty⟩ }
  visitPart visit n.second
  modify fun s => { s with method := none }

/-- Leaves the number of words that a method needs on its node, and on its symbol if its name was
not taken. -/
def recordFrame (id : NodeId) (symbol : Option SymbolId) (words : Nat) : Check Unit := do
  match symbol with
  | none => pure ()
  | some symbolId =>
    let s ← get
    set { s with table := ← s.table.update symbolId fun e => { e with size := words } }
  update id fun n => { n with size := words }

/-- Checks a method, with `declare` for its parameters, which are in a scope of their own around
the body. -/
def methodWith (declare visit : NodeId → Check Unit) (id : NodeId) (n : Node) : Check Unit := do
  let ty ← declaredType n
  let symbol ← methodName id n ty
  let outer := (← get).frame
  modify fun s => { s with frame := .starting frameHeaderWords }
  openScope
  methodInsideWith declare visit n ty
  recordFrame id symbol (← get).frame.peak
  discard closeScope
  modify fun s => { s with frame := outer }

/-- Checks a method and declares its parameters. -/
def method (visit : NodeId → Check Unit) (id : NodeId) (n : Node) : Check Unit :=
  methodWith parameter visit id n

/-- Checks a loop. -/
def loop (visit : NodeId → Check Unit) (n : Node) : Check Unit := do
  condition n.first
  modify fun s => { s with loopDepth := s.loopDepth + 1 }
  visitPart visit n.second
  modify fun s => { s with loopDepth := s.loopDepth - 1 }

/-- Checks a statement that leaves a loop or goes on with it. -/
def jump (statement : String) (id : NodeId) : Check Unit := do
  if (← get).loopDepth = 0 then report (.outsideLoop statement) id

/-- Checks an assignment. -/
def assignment (id : NodeId) (n : Node) : Check Unit := do
  let wanted ← typePart expression n.first
  let received ← typePart expression n.second
  match wanted with
  | none => pure ()
  | some wanted => expect wanted received id

/-- Checks a return. Outside of a method it may return anything. -/
def returnValue (id : NodeId) (n : Node) : Check Unit := do
  let received ← typePart expression n.first
  match (← get).method with
  | none => pure ()
  | some enclosing =>
    match n.first, enclosing.ty with
    | none, .void => pure ()
    | none, _ | some _, .void => report (.invalidReturn enclosing.name) id
    | some _, wanted => expect wanted received id

/-- Checks the node `n` by what it is. -/
def visitByKind (visit : NodeId → Check Unit) (id : NodeId) (n : Node) : Check Unit :=
  match n.kind with
  | .program => do
    eachSibling n.first visit
    eachSibling n.second visit
  | .package => do
    packageName id n
    eachSibling n.first visit
    eachSibling n.second visit
  | .externDecl => externDecl id n
  | .methodDecl => method visit id n
  | .variableDecl => variableDecl id n
  | .externType | .parameter => pure ()
  | .block => block visit n
  | .conditional => do
    visitPart visit n.first
    visitPart visit n.second
  | .thenBranch => do
    condition n.first
    visitPart visit n.second
  | .elseBranch => visitPart visit n.first
  | .loop => loop visit n
  | .assignment => assignment id n
  | .returnValue => returnValue id n
  | .breakLoop => jump "break" id
  | .continueLoop => jump "continue" id
  | .call | .argument | .operation | .target | .reference | .intConstant | .boolConstant
  | .stringConstant => discard (expression id)

/-- Checks the construct that `id` names, down to `depth`. -/
def statementWithin : Nat → NodeId → Check Unit
  | 0, _ => throw .endless
  | depth + 1, id => do visitByKind (statementWithin depth) id (← node id)

/-- Checks the construct that `id` names. -/
def statement (id : NodeId) : Check Unit := do
  statementWithin ((← get).tree.size + 1) id

/-- Checks the constructs from `head` on. -/
def statements (head : Option NodeId) : Check Unit := eachSibling head statement

end DecafStatics.Check
