import DecafStatics.Sink
import DecafStatics.Tree.Chain

/-!
# Dumping trees

The dump of a tree shows every node in a stanza of its own, with its children beneath it. It
works on any tree, before and after checking, and says of what is missing that it is missing.

A stanza is written at a level, which is the number of spaces in front of its lines; each kind of
node decides the levels of its children and what stands around them. Siblings share a level.
The two branches of a conditional are shown without the nodes that wrap them. An indentation has
a greatest width, and a line that needs a wider one is a fault.

## Implementation notes

`Tree.stanza` is given the function that dumps the children, and `Tree.dumpWithin` closes the
knot over a depth. A node below itself makes a tree without a bottom, which no depth suffices
for. Its dump goes on forever unless one of two limits ends it, and `Tree.dumpBound` allows for
as many turns round a circle as either of them does, in depth and along each chain.

* The sink becomes full. On every turn at least one byte is written, or nothing is written on any
  turn, so a sink with room for `n` bytes ends the dump after `n + 1` turns if it ends it at all.
* The indentation becomes too wide. On the way down levels never decrease, so a dump that meets a
  node twice at one level goes on forever, and one that does not ends when it has met each node
  at each level up to `Tree.maxIndent`.

## Main definitions

* `Tree.dump` — writing the dump of a chain of nodes
* `Tree.dumpText` — the dump as a text

## Main results

* `Tree.writeChain_of_linked` — a chain that ends is shown whole, sibling by sibling
-/

namespace DecafStatics

/-- How a type is shown that may not be known. -/
def typeLabel (ty : Option Ty) : String := (ty.map Ty.label).getD "UNTYPED"

/-- How the value of a node is shown as a truth value. -/
def truthLabel (value : Int32) : String := if value = 1 then "TRUE" else "FALSE"

namespace Tree

/-- The widest indentation of a line. -/
def maxIndent : Nat := 65535

/-- The spaces in front of a line at `level`, if a line can be indented that far. -/
def indent (level : Nat) : Except Fault String :=
  if level ≤ maxIndent then .ok (String.ofList (List.replicate level ' '))
  else .error .indentTooWide

/-- Writes `text` behind the spaces of `level`. -/
def writeAt (level : Nat) (text : String) : Writer Unit := do
  Writer.write ((← Writer.read (indent level)) ++ text)

/-- Writes one line at `level`. -/
def writeLine (level : Nat) (text : String) : Writer Unit := writeAt level (text ++ "\n")

/-- The line of a variable, with the length of an array and the initial value read off the nodes
that hold them. The initial value of a truth variable is shown as a truth value. -/
def writeVariable (t : Tree) (level : Nat) (n : Node) : Writer Unit := do
  writeAt level s!"Variable {n.text}"
  match n.first with
  | none => pure ()
  | some id =>
    let length ← Writer.read (t.node id)
    Writer.write s!"[{length.value.toInt}]"
  Writer.write s!" with type {typeLabel n.ty}"
  match n.second with
  | none => pure ()
  | some id =>
    let init ← Writer.read (t.node id)
    if n.ty = some .bool then
      Writer.write s!" = {truthLabel init.value}"
    else
      Writer.write s!" = {init.value.toInt}"
  Writer.write "\n"

/-- The children of a conditional, taken out of the nodes that wrap them. -/
def writeBranches (t : Tree) (children : Nat → Option NodeId → Writer Unit) (level : Nat)
    (n : Node) : Writer Unit := do
  match n.first with
  | none => pure ()
  | some id =>
    let branch ← Writer.read (t.node id)
    children (level + 1) branch.first
    children (level + 3) branch.second
  match n.second with
  | none => pure ()
  | some id =>
    writeLine (level + 2) "ELSE STATEMENT"
    let branch ← Writer.read (t.node id)
    children (level + 3) branch.first

/-- Writes one node and, by means of `children`, what is below it. -/
def stanza (t : Tree) (children : Nat → Option NodeId → Writer Unit) (level : Nat) (n : Node) :
    Writer Unit := do
  match n.kind with
  | .program =>
    writeAt level ""
    children level n.first
    children level n.second
  | .package =>
    writeLine level s!"PACKAGE name {n.text}"
    children level n.first
    Writer.write "\n"
    children level n.second
  | .externDecl =>
    writeLine level s!"EXTERN FUNC {n.text}"
    children (level + 1) n.first
    Writer.write s!"END EXTERN with Type: {typeLabel n.ty}\n\n"
  | .externType => writeLine level s!"Extern Type {typeLabel n.ty}"
  | .methodDecl =>
    writeAt level s!"METHOD FUNCTION {n.text} {typeLabel n.ty}"
    if n.first.isNone then
      Writer.write " (VOID)\n"
    else
      Writer.write "\n"
      writeLine (level + 2) "("
      children (level + 2) n.first
      writeLine (level + 2) ")"
    children (level + 2) n.second
  | .parameter => writeLine level s!"PARAMETER {typeLabel n.ty} {n.text}"
  | .variableDecl => t.writeVariable level n
  | .block =>
    writeLine level "BLOCK STATEMENT"
    children level n.first
    children level n.second
  | .assignment =>
    writeLine level "ASSIGNMENT STATEMENT"
    children level n.first
    children (level + 2) n.second
  | .call =>
    writeLine level s!"METHOD CALL name: {n.text}"
    writeLine (level + 1) "("
    children (level + 2) n.first
    writeLine (level + 1) ")"
  | .argument =>
    writeLine level "METHOD ARG"
    children level n.first
  | .conditional =>
    writeLine level "IF STATEMENT"
    t.writeBranches children level n
  | .thenBranch =>
    writeLine level "IF BLOCK"
    children (level + 1) n.first
    children (level + 1) n.second
  | .elseBranch =>
    writeLine level "ELSE BLOCK"
    children (level + 1) n.first
  | .loop =>
    writeLine level "WHILE STATEMENT"
    children (level + 1) n.first
    children (level + 2) n.second
  | .returnValue =>
    writeLine level "RETURN STATEMENT"
    children (level + 1) n.first
  | .breakLoop => writeLine level "BREAK STATEMENT"
  | .continueLoop => writeLine level "CONTINUE STATEMENT"
  | .operation =>
    match n.operator with
    | none => writeLine level "EXPR"
    | some op => writeLine level s!"EXPR {op.symbol}"
    children (level + 1) n.first
    if n.operator.any Operator.isUnary then pure () else children (level + 1) n.second
  | .target | .reference =>
    writeLine level s!"Variable {n.text}"
    if n.first.isSome then
      writeLine level "["
      children (level + 1) n.first
      writeLine level "]"
  | .intConstant => writeLine level s!"INT CONSTANT with value {n.value.toInt}"
  | .boolConstant => writeLine level s!"BOOL CONSTANT with value {truthLabel n.value}"
  | .stringConstant => writeLine level s!"STRING CONSTANT {n.text}"

/-- Shows the nodes from `head` on, one after the other, for at most `bound` of them. A node is
read only when its turn has come. -/
def writeChain (t : Tree) (writeNode : Node → Writer Unit) : Nat → Option NodeId → Writer Unit
  | _, none => pure ()
  | 0, some _ => throw (.fault .endless)
  | bound + 1, some id => do
    let n ← Writer.read (t.node id)
    writeNode n
    t.writeChain writeNode bound n.next

/-- Writes the nodes from `head` on and what is below them, down to `depth`, following each chain
for at most `bound` siblings. -/
def dumpWithin (t : Tree) (bound : Nat) : Nat → Nat → Option NodeId → Writer Unit
  | 0, _, _ => throw (.fault .endless)
  | depth + 1, level, head =>
    t.writeChain (t.stanza (t.dumpWithin bound depth) level) bound head

/-- How far a dump to a sink with the given room has to be followed. -/
def dumpBound (t : Tree) (room : Option Nat) : Nat := (t.size + 1) * (room.getD maxIndent + 2)

/-- Writes the nodes from `head` on, and what is below them, at `level`. -/
def dump (t : Tree) (level : Nat) (head : Option NodeId) : Writer Unit := do
  let bound := t.dumpBound (← get).room
  t.dumpWithin bound bound level head

/-- The dump of the nodes from `head` on as a text. -/
def dumpText (t : Tree) (head : Option NodeId) : Except Fault String := (t.dump 0 head).toText

@[simp] theorem writeChain_none (t : Tree) (writeNode : Node → Writer Unit) (bound : Nat) :
    t.writeChain writeNode bound none = pure () := by
  cases bound <;> rfl

/-- On a chain that ends the bound does not show: each of its siblings is read and shown. -/
theorem writeChain_of_linked {t : Tree} {head : Option NodeId} {ids : List NodeId}
    (h : t.Linked head ids) (writeNode : Node → Writer Unit) {bound : Nat}
    (hb : ids.length ≤ bound) :
    t.writeChain writeNode bound head =
      forM ids (fun id => Writer.read (t.node id) >>= writeNode) := by
  induction h generalizing bound with
  | nil => simp
  | cons hn _ ih =>
    obtain ⟨bound, rfl⟩ : ∃ b, bound = b + 1 := ⟨bound - 1, by simp at hb; omega⟩
    simp only [writeChain, hn, Writer.read, pure_bind, List.forM_cons]
    rw [ih (by simpa using hb)]
    rfl

@[simp] theorem dumpWithin_none (t : Tree) (bound depth level : Nat) :
    t.dumpWithin bound (depth + 1) level none = pure () := by
  simp [dumpWithin]

end Tree

end DecafStatics
