import DecafStatics.Tree.Chain

/-!
# Building trees

One operation for each construct of the grammar. An operation appends the nodes that its
construct needs, hangs the given children into them, and gives the handle of the node that
stands for the construct. The constructs that hold a list make a chain of it.

## Implementation notes

The order in which nodes are appended is part of the contract, because it decides which handle a
node gets. A construct comes before the nodes that serve it (the length of an array, the wrappers
around the arguments of a call, the parameter types of an extern method); only a conditional
comes after its branches.

A node is appended with nothing but its kind set, and the rest is written to it through its handle.
-/

namespace DecafStatics

/-- Computations that extend a tree. -/
abbrev Build := StateT Tree (Except Fault)

namespace Build

/-! ### Single nodes -/

/-- Appends a node. -/
def add (n : Node) : Build NodeId := modifyGet fun t => t.alloc n

/-- Appends a node with nothing but its kind set. -/
def create (kind : NodeKind) : Build NodeId := add (Node.blank kind)

/-- Overwrites a node. -/
def update (id : NodeId) (f : Node → Node) : Build Unit := fun t =>
  (t.update id f).map fun t => ((), t)

/-- Appends a node, and `f` sets the rest of it. -/
def make (kind : NodeKind) (f : Node → Node) : Build NodeId := do
  let id ← create kind
  update id f
  return id

/-- Makes a chain of `ids` and gives its head. -/
def link (ids : List NodeId) : Build (Option NodeId) := fun t =>
  (t.link ids).map fun t => (ids.head?, t)

/-- Appends a node that has a name. -/
def named (kind : NodeKind) (name : String) : Build NodeId :=
  make kind fun n => { n with name := some name }

/-- Appends a node that has a name and a type. -/
def typed (kind : NodeKind) (name : String) (ty : Ty) : Build NodeId := do
  let id ← named kind name
  update id fun n => { n with ty := some ty }
  return id

/-! ### Expressions -/

/-- An integer literal. -/
def intConstant (value : Int32) : Build NodeId :=
  make .intConstant fun n => { n with value := value }

/-- A truth value, which is held as zero or one. -/
def boolConstant (value : Bool) : Build NodeId :=
  make .boolConstant fun n => { n with value := if value then 1 else 0 }

/-- The literal is given as it is written, with its quotes. -/
def stringConstant (literal : String) : Build NodeId := named .stringConstant literal

/-- A variable that is read. -/
def reference (name : String) : Build NodeId := named .reference name

/-- A variable that is written. -/
def target (name : String) : Build NodeId := named .target name

/-- The element at `index` of an array that is read or written, as `kind` says. -/
def element (kind : NodeKind) (name : String) (index : NodeId) : Build NodeId := do
  let id ← named kind name
  update id fun n => { n with first := some index }
  return id

/-- An operation on two operands. -/
def binary (op : Operator) (left right : NodeId) : Build NodeId :=
  make .operation fun n =>
    { n with operator := some op, first := some left, second := some right }

/-- An operation on one operand. -/
def unary (op : Operator) (operand : NodeId) : Build NodeId :=
  make .operation fun n => { n with operator := some op, first := some operand }

/-- The wrapper that makes an expression an argument. -/
def argument (expression : NodeId) : Build NodeId :=
  make .argument fun n => { n with first := some expression }

/-- A call; each argument is wrapped. -/
def call (name : String) (arguments : List NodeId) : Build NodeId := do
  let id ← named .call name
  let head ← link (← arguments.mapM argument)
  update id fun n => { n with first := head }
  return id

/-! ### Statements -/

/-- An assignment of `right` to `left`. -/
def assignment (left right : NodeId) : Build NodeId :=
  make .assignment fun n => { n with first := some left, second := some right }

/-- A return, with a value or without. -/
def returnValue (value : Option NodeId) : Build NodeId :=
  make .returnValue fun n => { n with first := value }

/-- A loop that runs `body` as long as `condition` holds. -/
def loop (condition body : NodeId) : Build NodeId :=
  make .loop fun n => { n with first := some condition, second := some body }

/-- A conditional, which comes after the nodes of its branches. -/
def conditional (condition yes : NodeId) (no : Option NodeId) : Build NodeId := do
  let thenBranch ← make .thenBranch fun n =>
    { n with first := some condition, second := some yes }
  let elseBranch ← no.mapM fun body => make .elseBranch fun n => { n with first := some body }
  make .conditional fun n => { n with first := some thenBranch, second := elseBranch }

/-- A block of local variables and statements. -/
def block (locals statements : List NodeId) : Build NodeId := do
  let id ← create .block
  let locals ← link locals
  let statements ← link statements
  update id fun n => { n with first := locals, second := statements }
  return id

/-! ### Declarations -/

/-- A variable of one word. -/
def scalar (name : String) (ty : Ty) : Build NodeId := typed .variableDecl name ty

/-- An array, whose length becomes a node of its own. -/
def array (name : String) (ty : Ty) (length : Int32) : Build NodeId := do
  let id ← scalar name ty
  let length ← intConstant length
  update id fun n => { n with first := some length }
  return id

/-- A variable with an initial value. -/
def initialized (name : String) (ty : Ty) (value : NodeId) : Build NodeId := do
  let id ← scalar name ty
  update id fun n => { n with second := some value }
  return id

/-- One parameter of a method. -/
def parameter (name : String) (ty : Ty) : Build NodeId := typed .parameter name ty

/-- A method with its parameters. -/
def method (name : String) (ty : Ty) (params : List NodeId) (body : NodeId) : Build NodeId := do
  let id ← typed .methodDecl name ty
  let params ← link params
  update id fun n => { n with first := params, second := some body }
  return id

/-- The type of one parameter of an extern method. -/
def externType (ty : Ty) : Build NodeId := make .externType fun n => { n with ty := some ty }

/-- An extern method; each parameter type becomes a node of its own. -/
def externDecl (name : String) (ty : Ty) (params : List Ty) : Build NodeId := do
  let id ← typed .externDecl name ty
  let head ← link (← params.mapM externType)
  update id fun n => { n with first := head }
  return id

/-- A package of fields and methods. -/
def package (name : String) (fields methods : List NodeId) : Build NodeId := do
  let id ← named .package name
  let fields ← link fields
  let methods ← link methods
  update id fun n => { n with first := fields, second := methods }
  return id

/-- The root of a program. -/
def program (externs : List NodeId) (package : NodeId) : Build NodeId := do
  let id ← create .program
  let externs ← link externs
  update id fun n => { n with first := externs, second := some package }
  return id

end Build

end DecafStatics
