import DecafStatics.Ty

/-!
# Operators

The seventeen operators, the text that a listing shows for them, and the typing rule of each.
A rule is a `Signature`: what the operands must be and what comes out. Only equality is
polymorphic, and there the left operand decides what the right one has to be.
-/

namespace DecafStatics

/-- The unary and binary operators. -/
inductive Operator where
  | plus
  | minus
  | times
  | not
  | divide
  | mod
  | and
  | or
  | rightShift
  | leftShift
  | unaryMinus
  | leq
  | geq
  | gt
  | lt
  | eq
  | neq
  deriving DecidableEq

/-- The typing rules that operators follow, one for each shape of signature. -/
inductive OperatorClass where
  /-- Two integers give an integer. -/
  | arithmetic
  /-- Two integers give a truth value. -/
  | relational
  /-- Two operands of one type give a truth value. -/
  | equality
  /-- Two truth values give a truth value. -/
  | logical
  /-- One integer gives an integer. -/
  | negation
  /-- One truth value gives a truth value. -/
  | complement
  deriving DecidableEq

/-- What an operand has to be. -/
inductive Operand where
  /-- Exactly this type. -/
  | exactly (ty : Ty)
  /-- The type of the left operand, whatever it is. -/
  | sameAsLeft
  deriving DecidableEq

/-- The type that an operand has to have, given what is known of the left one. -/
def Operand.wanted : Operand → Option Ty → Option Ty
  | .exactly ty, _ => some ty
  | .sameAsLeft, left => left

namespace OperatorClass

/-- What the operands of an operator of this class have to be. -/
def operand : OperatorClass → Operand
  | arithmetic | relational | negation => .exactly .int
  | logical | complement => .exactly .bool
  | equality => .sameAsLeft

/-- The type of the result, which does not depend on the operands. -/
def result : OperatorClass → Ty
  | arithmetic | negation => .int
  | relational | equality | logical | complement => .bool

/-- How many operands an operator of this class takes. -/
def arity : OperatorClass → Nat
  | negation | complement => 1
  | arithmetic | relational | equality | logical => 2

end OperatorClass

namespace Operator

/-- The operator as it is written in a program. -/
def symbol : Operator → String
  | plus => "+"
  | minus => "-"
  | times => "*"
  | not => "!"
  | divide => "/"
  | mod => "%"
  | and => "&&"
  | or => "||"
  | rightShift => ">>"
  | leftShift => "<<"
  | unaryMinus => "-"
  | leq => "<="
  | geq => ">="
  | gt => ">"
  | lt => "<"
  | eq => "=="
  | neq => "!="

/-- The typing rule that the operator follows. -/
def cls : Operator → OperatorClass
  | plus | minus | times | divide | mod | rightShift | leftShift => .arithmetic
  | leq | geq | gt | lt => .relational
  | eq | neq => .equality
  | and | or => .logical
  | unaryMinus => .negation
  | not => .complement

/-- Whether the operator takes a single operand. -/
def isUnary : Operator → Bool
  | not | unaryMinus => true
  | _ => false

theorem isUnary_iff_arity (op : Operator) : op.isUnary = true ↔ op.cls.arity = 1 := by
  cases op <;> decide

theorem isUnary_eq_false {op : Operator} (h : op.cls.arity = 2) : op.isUnary = false := by
  rw [← Bool.not_eq_true, isUnary_iff_arity, h]
  decide

/-- The minus sign is the only symbol that two operators share, and their arity tells the two
apart. -/
theorem eq_of_symbol_of_isUnary {a b : Operator} (hs : a.symbol = b.symbol)
    (hu : a.isUnary = b.isUnary) : a = b := by
  cases a <;> cases b <;> simp_all [symbol, isUnary]

end Operator

end DecafStatics
