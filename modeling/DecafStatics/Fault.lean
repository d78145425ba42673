/-!
# Faults

A *diagnostic* is about the program being checked and is collected. A *fault* is about the way
the program is held: a handle that names nothing, a declaration that the parser left without a
type. A fault ends the operation it occurs in, and the operation has no other result.
-/

namespace DecafStatics

/-- Why an operation could not be carried through. -/
inductive Fault where
  /-- A node or a symbol was looked up at `index` in a store of `count` entries. -/
  | outOfBounds (count index : Nat)
  /-- A sum of storage sizes does not fit into a machine word. -/
  | sizeOverflow
  /-- A declaration of `name` carries no type. -/
  | untypedDeclaration (name : String)
  /-- An expression node carries no operator. -/
  | missingOperator
  /-- A line is to be indented by more than an indentation can be wide. -/
  | indentTooWide
  /-- The walk goes round in a circle and would never come to an end. -/
  | endless
  deriving DecidableEq

/-- The text that reports a fault. -/
def Fault.message : Fault → String
  | outOfBounds count index =>
    s!"index out of bounds: the len is {count} but the index is {index}"
  | sizeOverflow => "attempt to add with overflow"
  | untypedDeclaration name => s!"Attempted to declare `{name}` without a type"
  | missingOperator => "Attempted to type an expression without an operator"
  | indentTooWide => "Formatting argument out of range"
  | endless => "walk without end"

/-- Storage sizes and offsets are machine words of 64 bits: they stay below the 64th power of
two. -/
def wordLimit : Nat := 0x10000000000000000

end DecafStatics
