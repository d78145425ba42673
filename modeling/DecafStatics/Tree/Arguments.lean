import DecafStatics.Tree.Basic

/-!
# Arguments and parameters

The arguments of a call fit the parameters of a method if there are as many of one as of the
other and each argument has the type of the parameter in its place. An argument is a node that
wraps an expression, and it is the type of the expression that counts. What has no type fits
nothing.

## Implementation notes

The two chains are followed side by side and only as far as they fit, so that one of them may
turn back into itself as long as the other comes to an end. A comparison that comes to an end
never looks at the same two nodes twice, which bounds its length by the square of the size of the
tree; behind the last of these pairs there may be a handle that names no node.
-/

namespace DecafStatics.Tree

/-- The type of the expression that an argument wraps. -/
def argumentType (t : Tree) (argument : Node) : Except Fault (Option Ty) :=
  match argument.first with
  | none => .ok none
  | some id => (t.node id).map Node.ty

/-- Whether an argument of type `given` fits a parameter of type `wanted`. -/
def typesFit (wanted given : Option Ty) : Bool := wanted.isSome && wanted = given

/-- Compares the parameters from `formal` on with the arguments from `actual` on, for at most
`bound` pairs. -/
def argumentsFitWithin (t : Tree) : Nat → Option NodeId → Option NodeId → Except Fault Bool
  | _, none, none => .ok true
  | _, none, some _ => .ok false
  | _, some _, none => .ok false
  | 0, some _, some _ => .error .endless
  | bound + 1, some formal, some actual => do
    let parameter ← t.node formal
    let argument ← t.node actual
    if typesFit parameter.ty (← t.argumentType argument) then
      t.argumentsFitWithin bound parameter.next argument.next
    else
      .ok false

/-- Whether the arguments from `actual` on fit the parameters from `formal` on. -/
def argumentsFit (t : Tree) (formal actual : Option NodeId) : Except Fault Bool :=
  t.argumentsFitWithin (t.size * t.size + 1) formal actual

theorem typesFit_iff {wanted given : Option Ty} :
    typesFit wanted given = true ↔ ∃ ty, wanted = some ty ∧ given = some ty := by
  cases wanted <;> simp [typesFit, eq_comm]

end DecafStatics.Tree
