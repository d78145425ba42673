import DecafStatics.Proofs.Syntax

/-!
# The static semantics

When a program is well formed, as rules over the grammar. Nothing here runs: there is no table, no
level and no diagnostic, only scopes that are handed down.

## Implementation notes

The innermost declaration of a name comes first in a scope, so that what a name denotes is the first
entry of it. All the global names of a program form one scope, as do the parameters of a method, and
the variables of each block.

A method can be called by itself and by the methods behind it, and not by those before it.

An array is a property of a name and not of a type, so a variable and an array of one type have
different meanings; only its elements can be used.

## Main definitions

* `Operator.Signature` — the types of operands and results
* `HasType` — typing of expressions
* `Stmt.WellFormed`, `Method.WellFormed`, `Program.WellFormed` — what is well formed
-/

namespace DecafStatics

/-- What a name denotes. -/
inductive Meaning where
  | scalar (ty : Ty)
  /-- An array with elements of this type. -/
  | array (ty : Ty)
  | callable (ty : Ty) (formals : List Ty)
  | package
  deriving DecidableEq

/-- The names in sight, the innermost first. -/
abbrev Scope := List (String × Meaning)

/-! ### Expressions -/

/-- The operator takes operands of one type, and this is the type of the result. -/
inductive Operator.Signature : Operator → Ty → Ty → Prop where
  | arithmetic {op : Operator} :
      op ∈ [plus, minus, times, divide, mod, leftShift, rightShift] → Signature op .int .int
  | relational {op : Operator} : op ∈ [leq, geq, gt, lt] → Signature op .int .bool
  | equality {op : Operator} {ty : Ty} : op ∈ [eq, neq] → Signature op ty .bool
  | logical {op : Operator} : op ∈ [and, or] → Signature op .bool .bool
  | negation : Signature unaryMinus .int .int
  | complement : Signature not .bool .bool

mutual

/-- The expression has this type, where these names are in sight. -/
inductive HasType (Γ : Scope) : Expr → Ty → Prop where
  | literal {l : Literal} : HasType Γ (.literal l) l.ty
  | plain {id : NodeId} {access : Access} {name : String} {ty : Ty} :
      Γ.lookup name = some (.scalar ty) → HasType Γ (.plain id access name) ty
  | element {id : NodeId} {access : Access} {name : String} {index : Expr} {ty : Ty} :
      Γ.lookup name = some (.array ty) → HasType Γ index .int →
      HasType Γ (.element id access name index) ty
  | unary {id : NodeId} {op : Operator} {arity : op.cls.arity = 1} {operand : Expr}
      {ty result : Ty} :
      op.Signature ty result → HasType Γ operand ty → HasType Γ (.unary id op arity operand) result
  | binary {id : NodeId} {op : Operator} {arity : op.cls.arity = 2} {left right : Expr}
      {ty result : Ty} :
      op.Signature ty result → HasType Γ left ty → HasType Γ right ty →
      HasType Γ (.binary id op arity left right) result
  | call {id : NodeId} {name : String} {arguments : List (NodeId × Expr)} {ty : Ty}
      {formals : List Ty} :
      Γ.lookup name = some (.callable ty formals) → HaveTypes Γ arguments formals →
      HasType Γ (.call id name arguments) ty

/-- The arguments are as many as the types, and each has its type. -/
inductive HaveTypes (Γ : Scope) : List (NodeId × Expr) → List Ty → Prop where
  | nil : HaveTypes Γ [] []
  | cons {wrapper : NodeId} {e : Expr} {rest : List (NodeId × Expr)} {ty : Ty} {types : List Ty} :
      HasType Γ e ty → HaveTypes Γ rest types → HaveTypes Γ ((wrapper, e) :: rest) (ty :: types)

end

/-! ### Declarations -/

namespace VarDecl

/-- What the declaration of a variable brings into scope. -/
def entry (d : VarDecl) : String × Meaning :=
  match d.shape with
  | .array .. => (d.name, .array d.ty)
  | .scalar | .initialized _ => (d.name, .scalar d.ty)

/-- An array has an element, and an initial value has the type of the variable. -/
def WellFormed (d : VarDecl) : Prop :=
  match d.shape with
  | .scalar => True
  | .array _ length => 1 ≤ length
  | .initialized value => value.ty = d.ty

end VarDecl

def Param.entry (param : Param) : String × Meaning := (param.name, .scalar param.ty)

def Method.entry (m : Method) : String × Meaning :=
  (m.name, .callable m.ty (m.params.map Param.ty))

def Extern.entry (e : Extern) : String × Meaning :=
  (e.name, .callable e.ty (e.params.map Prod.snd))

/-- The scope inside of one, with these entries in addition, the last of them the innermost. -/
def Scope.extend (Γ : Scope) (entries : List (String × Meaning)) : Scope := entries.reverse ++ Γ

/-- No name is declared twice. -/
def Distinct (entries : List (String × Meaning)) : Prop := (entries.map Prod.fst).Nodup

/-! ### Statements -/

/-- The statement is well formed in a method that returns `result`, inside of a loop or not. -/
inductive Stmt.WellFormed (result : Ty) : Bool → Scope → Stmt → Prop where
  | assignment {looping : Bool} {Γ : Scope} {id : NodeId} {target : Target} {value : Expr}
      {ty : Ty} :
      HasType Γ target.expr ty → HasType Γ value ty →
      WellFormed result looping Γ (.assignment id target value)
  | call {looping : Bool} {Γ : Scope} {c : Call} {ty : Ty} :
      HasType Γ c.expr ty → WellFormed result looping Γ (.call c)
  | ifThen {looping : Bool} {Γ : Scope} {id branch : NodeId} {condition : Expr} {yes : Stmt} :
      HasType Γ condition .bool → WellFormed result looping Γ yes →
      WellFormed result looping Γ (.ifThen id branch condition yes)
  | ifElse {looping : Bool} {Γ : Scope} {id branch : NodeId} {condition : Expr} {yes : Stmt}
      {other : NodeId} {no : Stmt} :
      HasType Γ condition .bool → WellFormed result looping Γ yes →
      WellFormed result looping Γ no →
      WellFormed result looping Γ (.ifElse id branch condition yes other no)
  | loop {looping : Bool} {Γ : Scope} {id : NodeId} {condition : Expr} {body : Stmt} :
      HasType Γ condition .bool → WellFormed result true Γ body →
      WellFormed result looping Γ (.loop id condition body)
  | returnNothing {looping : Bool} {Γ : Scope} {id : NodeId} :
      result = .void → WellFormed result looping Γ (.returnValue id none)
  | returnValue {looping : Bool} {Γ : Scope} {id : NodeId} {e : Expr} :
      result ≠ .void → HasType Γ e result → WellFormed result looping Γ (.returnValue id (some e))
  | jump {Γ : Scope} {id : NodeId} {j : Jump} : WellFormed result true Γ (.jump id j)
  | block {looping : Bool} {Γ : Scope} {id : NodeId} {locals : List VarDecl} {body : List Stmt} :
      Distinct (locals.map VarDecl.entry) → (∀ d ∈ locals, d.WellFormed) →
      (∀ st ∈ body, WellFormed result looping (Γ.extend (locals.map VarDecl.entry)) st) →
      WellFormed result looping Γ (.block id locals body)

/-! ### Programs -/

/-- The method is well formed among these global names. -/
structure Method.WellFormed (Γ : Scope) (m : Method) : Prop where
  distinct : Distinct (m.params.map Param.entry)
  body : m.block.WellFormed m.ty false (Γ.extend (m.params.map Param.entry))

/-- The global names of a program of which only some methods are in sight. -/
def Program.globals (p : Program) (methods : List Method) : List (String × Meaning) :=
  p.externs.map Extern.entry ++ (p.name, .package) :: p.fields.map VarDecl.entry ++
    methods.map Method.entry

/-- The program is well formed. -/
structure Program.WellFormed (p : Program) : Prop where
  distinct : Distinct (p.globals p.methods)
  fields : ∀ d ∈ p.fields, d.WellFormed
  methods : ∀ before m after, p.methods = before ++ m :: after →
    m.WellFormed (Scope.extend [] (p.globals (before ++ [m])))

end DecafStatics
