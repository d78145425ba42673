/-!
# The declarable types

Decaf has four types. There are no type constructors: an array is a property of the name that
is declared, not of its type.
-/

namespace DecafStatics

/-- The types that a declaration can give. -/
inductive Ty where
  | int
  | bool
  | void
  | string
  deriving DecidableEq

/-- The upper-case label under which listings and messages show a type. -/
def Ty.label : Ty → String
  | .int => "INT"
  | .bool => "BOOL"
  | .void => "VOID"
  | .string => "STRING"

end DecafStatics
