import DecafStatics.Check.State

/-!
# Declaring

A declaration enters a symbol at the current level and leaves a link to it on the declaring node.
A name that is taken at the level is reported, and then the declaration has no effect: the node
is left without a link and no storage is taken up.

Fields, locals and parameters are laid out in the order of their declaration. Extern methods,
packages and methods take up no words of the frame around them; an extern method and a package
count as one word in the table, a method as the words of its own activation record.
-/

namespace DecafStatics.Check

/-- The type that the declaration `n` gives. -/
def declaredType (n : Node) : Except Fault Ty :=
  match n.ty with
  | some ty => .ok ty
  | none => .error (.untypedDeclaration n.text)

/-- Enters a symbol and links the declaring node to it. -/
def declare (id : NodeId) (symbol : Symbol) : Check (Option SymbolId) := do
  let n ← node id
  match (← get).table.insert symbol n.position with
  | .error d =>
    add d
    return none
  | .ok (symbolId, table) =>
    modify fun s => { s with table := table }
    update id fun n => { n with symbol := some symbolId }
    return some symbolId

/-- Enters a symbol that takes up words of the current frame. -/
def declareStored (id : NodeId) (name : String) (ty : Ty) (kind : SymbolKind) (size : Nat) :
    Check Unit := do
  update id fun n => { n with size := size }
  let s ← get
  let symbol ← declare id ⟨name, ty, kind, s.level, size, s.frame.offset, none⟩
  if symbol.isSome then allocate size

/-- Declares an extern method. -/
def externDecl (id : NodeId) (n : Node) : Check Unit := do
  let ty ← declaredType n
  let level := (← get).level
  discard <| declare id ⟨n.text, ty, .externMethod, level, 1, 0, n.first⟩

/-- Declares the name of a package. -/
def packageName (id : NodeId) (n : Node) : Check Unit := do
  let level := (← get).level
  discard <| declare id ⟨n.text, .void, .package, level, 1, 0, none⟩

/-- Declares one parameter of a method. -/
def parameter (id : NodeId) : Check Unit := do
  let n ← node id
  let ty ← declaredType n
  declareStored id n.text ty .scalar 1

/-- Declares the name of a method, with no words of storage but the header. The body comes later,
so that it may call the method. -/
def methodName (id : NodeId) (n : Node) (ty : Ty) : Check (Option SymbolId) := do
  let level := (← get).level
  declare id ⟨n.text, ty, .method, level, frameHeaderWords, 0, n.first⟩

end DecafStatics.Check
