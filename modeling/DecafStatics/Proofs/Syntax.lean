import DecafStatics.Proofs.Annotation

/-!
# Programs

The programs of the grammar, as an inductive type. Each construct carries the handles of the nodes
that stand for it, so that a program says not only what is written but also where in a tree it is
held; the parts of a construct that have nodes of their own, such as the wrapper around an
argument or the length of an array, carry handles too.

What the grammar rules out cannot be written down: an operation has as many operands as its
operator takes, an assignment is to a variable or an element, and a body is a single statement.

## Main definitions

* `Expr`, `Stmt`, `VarDecl`, `Method`, `Program` — the grammar
* `Program.ids` — all nodes of a program

## Main results

* `Expr.induct`, `Stmt.induct` — induction with a hypothesis for each argument and statement
-/

namespace DecafStatics

/-- What one element of a list contributes is part of what all of them do. -/
theorem sublist_flatMap_of_mem {α β : Type} {f : α → List β} {l : List α} {a : α} (h : a ∈ l) :
    (f a).Sublist (l.flatMap f) := by
  rw [List.flatMap_def]
  exact List.sublist_flatten_of_mem (List.mem_map_of_mem h)

/-! ### Expressions -/

/-- A constant. -/
inductive Literal where
  | int (id : NodeId) (value : Int32)
  | bool (id : NodeId) (value : Int32)
  | string (id : NodeId) (text : String)

namespace Literal

def id : Literal → NodeId
  | int id _ | bool id _ | string id _ => id

/-- The type of a constant, which does not depend on where it stands. -/
def ty : Literal → Ty
  | int .. => .int
  | bool .. => .bool
  | string .. => .string

end Literal

/-- Whether a variable is read or written. -/
inductive Access where
  | read
  | write

def Access.kind : Access → NodeKind
  | read => .reference
  | write => .target

/-- Expressions. An argument of a call is an expression together with its wrapper. -/
inductive Expr where
  | literal (l : Literal)
  /-- A variable without an index. -/
  | plain (id : NodeId) (access : Access) (name : String)
  /-- An element of an array. -/
  | element (id : NodeId) (access : Access) (name : String) (index : Expr)
  | unary (id : NodeId) (op : Operator) (arity : op.cls.arity = 1) (operand : Expr)
  | binary (id : NodeId) (op : Operator) (arity : op.cls.arity = 2) (left right : Expr)
  | call (id : NodeId) (name : String) (arguments : List (NodeId × Expr))

namespace Expr

/-- Induction over expressions, with a hypothesis for each argument of a call. -/
@[elab_as_elim, induction_eliminator]
theorem induct {motive : Expr → Prop} (literal : ∀ l, motive (.literal l))
    (plain : ∀ id access name, motive (.plain id access name))
    (element : ∀ id access name index, motive index → motive (.element id access name index))
    (unary : ∀ id op arity operand, motive operand → motive (.unary id op arity operand))
    (binary : ∀ id op arity left right, motive left → motive right →
      motive (.binary id op arity left right))
    (call : ∀ id name arguments, (∀ a ∈ arguments, motive a.2) →
      motive (.call id name arguments)) : ∀ e, motive e
  | .literal l => literal l
  | .plain id access name => plain id access name
  | .element id access name index =>
    element id access name index (induct literal plain element unary binary call index)
  | .unary id op arity operand =>
    unary id op arity operand (induct literal plain element unary binary call operand)
  | .binary id op arity left right =>
    binary id op arity left right (induct literal plain element unary binary call left)
      (induct literal plain element unary binary call right)
  | .call id name arguments =>
    call id name arguments fun a _ => induct literal plain element unary binary call a.2
decreasing_by
  all_goals simp_wf
  any_goals omega
  rename_i h
  have := List.sizeOf_lt_of_mem h
  cases a
  simp at this ⊢
  omega

/-- The node that stands for the whole expression. -/
def id : Expr → NodeId
  | literal l => l.id
  | plain id .. | element id .. | unary id .. | binary id .. | call id .. => id

mutual

/-- The nodes of an expression. -/
def ids : Expr → List NodeId
  | literal l => [l.id]
  | plain id _ _ => [id]
  | element id _ _ index => id :: index.ids
  | unary id _ _ operand => id :: operand.ids
  | binary id _ _ left right => id :: (left.ids ++ right.ids)
  | call id _ arguments => id :: argumentIds arguments

/-- The nodes of the arguments of a call. -/
def argumentIds : List (NodeId × Expr) → List NodeId
  | [] => []
  | (wrapper, e) :: rest => wrapper :: (e.ids ++ argumentIds rest)

end

theorem argumentIds_eq (arguments : List (NodeId × Expr)) :
    argumentIds arguments = arguments.flatMap fun a => a.1 :: a.2.ids := by
  induction arguments with
  | nil => rfl
  | cons a rest ih => rw [argumentIds, ih, List.flatMap_cons, List.cons_append]

theorem id_mem_ids (e : Expr) : e.id ∈ e.ids := by
  cases e <;> simp [id, ids]

/-- What goes as deep as an expression has nodes goes at least one step. -/
theorem exists_depth {e : Expr} {depth : Nat} (h : e.ids.length ≤ depth) : ∃ d, depth = d + 1 := by
  have pos := List.length_pos_of_mem e.id_mem_ids
  exact ⟨depth - 1, by omega⟩

theorem ids_sublist_argumentIds {arguments : List (NodeId × Expr)} {a : NodeId × Expr}
    (ha : a ∈ arguments) : (a.1 :: a.2.ids).Sublist (argumentIds arguments) := by
  rw [argumentIds_eq]
  exact sublist_flatMap_of_mem (f := fun a : NodeId × Expr => a.1 :: a.2.ids) ha

end Expr

/-! ### Statements -/

/-- The left-hand side of an assignment. -/
structure Target where
  id : NodeId
  name : String
  index : Option Expr

/-- The left-hand side as an expression, which it is when it is typed. -/
def Target.expr (target : Target) : Expr :=
  match target.index with
  | none => .plain target.id .write target.name
  | some index => .element target.id .write target.name index

theorem Target.expr_id (target : Target) : target.expr.id = target.id := by
  rw [Target.expr]
  split <;> rfl

/-- A call that stands for itself. -/
structure Call where
  id : NodeId
  name : String
  arguments : List (NodeId × Expr)

def Call.expr (call : Call) : Expr := .call call.id call.name call.arguments

/-- The statements that leave a loop or go on with it. -/
inductive Jump where
  | breakLoop
  | continueLoop
  deriving DecidableEq

namespace Jump

def kind : Jump → NodeKind
  | breakLoop => .breakLoop
  | continueLoop => .continueLoop

/-- The word that the statement is written with. -/
def word : Jump → String
  | breakLoop => "break"
  | continueLoop => "continue"

end Jump

/-- What a variable is declared as. -/
inductive Shape where
  | scalar
  /-- An array, with the node that holds its length. -/
  | array (id : NodeId) (length : Int32)
  | initialized (value : Literal)

namespace Shape

/-- The node of the length, if there is one. -/
def first : Shape → Option NodeId
  | array id _ => some id
  | scalar | initialized _ => none

/-- The node of the initial value, if there is one. -/
def second : Shape → Option NodeId
  | initialized value => some value.id
  | scalar | array .. => none

end Shape

/-- The declaration of a variable. -/
structure VarDecl where
  id : NodeId
  name : String
  ty : Ty
  shape : Shape

def VarDecl.ids (d : VarDecl) : List NodeId :=
  d.id :: (d.shape.first.toList ++ d.shape.second.toList)

theorem VarDecl.length_le_length_ids (l : List VarDecl) :
    l.length ≤ (l.flatMap VarDecl.ids).length := by
  induction l with
  | nil => exact Nat.le_refl 0
  | cons d rest ih =>
    simp only [List.flatMap_cons, ids, List.length_append, List.length_cons]
    omega

/-- Statements. A conditional has a node for each of its branches. -/
inductive Stmt where
  | assignment (id : NodeId) (target : Target) (value : Expr)
  | call (call : Call)
  | ifThen (id branch : NodeId) (condition : Expr) (yes : Stmt)
  | ifElse (id branch : NodeId) (condition : Expr) (yes : Stmt) (other : NodeId) (no : Stmt)
  | loop (id : NodeId) (condition : Expr) (body : Stmt)
  | returnValue (id : NodeId) (value : Option Expr)
  | jump (id : NodeId) (jump : Jump)
  | block (id : NodeId) (locals : List VarDecl) (body : List Stmt)

namespace Stmt

/-- Induction over statements, with a hypothesis for each statement of a block. -/
@[elab_as_elim, induction_eliminator]
theorem induct {motive : Stmt → Prop}
    (assignment : ∀ id target value, motive (.assignment id target value))
    (call : ∀ c, motive (.call c))
    (ifThen : ∀ id branch condition yes, motive yes → motive (.ifThen id branch condition yes))
    (ifElse : ∀ id branch condition yes other no, motive yes → motive no →
      motive (.ifElse id branch condition yes other no))
    (loop : ∀ id condition body, motive body → motive (.loop id condition body))
    (returnValue : ∀ id value, motive (.returnValue id value))
    (jump : ∀ id j, motive (.jump id j))
    (block : ∀ id locals body, (∀ st ∈ body, motive st) → motive (.block id locals body)) :
    ∀ st, motive st
  | .assignment id target value => assignment id target value
  | .call c => call c
  | .ifThen id branch condition yes =>
    ifThen id branch condition yes
      (induct assignment call ifThen ifElse loop returnValue jump block yes)
  | .ifElse id branch condition yes other no =>
    ifElse id branch condition yes other no
      (induct assignment call ifThen ifElse loop returnValue jump block yes)
      (induct assignment call ifThen ifElse loop returnValue jump block no)
  | .loop id condition body =>
    loop id condition body (induct assignment call ifThen ifElse loop returnValue jump block body)
  | .returnValue id value => returnValue id value
  | .jump id j => jump id j
  | .block id locals body =>
    block id locals body fun st _ =>
      induct assignment call ifThen ifElse loop returnValue jump block st

/-- The node that stands for the whole statement. -/
def id : Stmt → NodeId
  | call c => c.id
  | assignment id .. | ifThen id .. | ifElse id .. | loop id .. | returnValue id ..
  | jump id .. | block id .. => id

mutual

/-- The nodes of a statement. -/
def ids : Stmt → List NodeId
  | assignment id target value => id :: (target.expr.ids ++ value.ids)
  | call c => c.expr.ids
  | ifThen id branch condition yes => id :: branch :: (condition.ids ++ yes.ids)
  | ifElse id branch condition yes other no =>
    id :: branch :: other :: (condition.ids ++ yes.ids ++ no.ids)
  | loop id condition body => id :: (condition.ids ++ body.ids)
  | returnValue id value => id :: (value.toList.flatMap Expr.ids)
  | jump id _ => [id]
  | block id locals body => id :: (locals.flatMap VarDecl.ids ++ bodyIds body)

/-- The nodes of the statements of a block. -/
def bodyIds : List Stmt → List NodeId
  | [] => []
  | st :: rest => st.ids ++ bodyIds rest

end

theorem bodyIds_eq (body : List Stmt) : bodyIds body = body.flatMap ids := by
  induction body with
  | nil => rfl
  | cons st rest ih => rw [bodyIds, ih, List.flatMap_cons]

theorem id_mem_ids (st : Stmt) : st.id ∈ st.ids := by
  cases st <;> simp [id, ids, Call.expr, Expr.ids]

/-- What goes as deep as a statement has nodes goes at least one step. -/
theorem exists_depth {st : Stmt} {depth : Nat} (h : st.ids.length ≤ depth) :
    ∃ d, depth = d + 1 := by
  have pos := List.length_pos_of_mem st.id_mem_ids
  exact ⟨depth - 1, by omega⟩

end Stmt

/-! ### Programs -/

/-- One parameter of a method. -/
structure Param where
  id : NodeId
  name : String
  ty : Ty

/-- A method. Its body is a block. -/
structure Method where
  id : NodeId
  name : String
  ty : Ty
  params : List Param
  body : NodeId
  locals : List VarDecl
  statements : List Stmt

/-- The body of a method as a statement. -/
def Method.block (m : Method) : Stmt := .block m.body m.locals m.statements

def Method.ids (m : Method) : List NodeId := m.id :: (m.params.map Param.id ++ m.block.ids)

/-- An extern method, whose parameters have types but no names. -/
structure Extern where
  id : NodeId
  name : String
  ty : Ty
  params : List (NodeId × Ty)

def Extern.ids (e : Extern) : List NodeId := e.id :: e.params.map Prod.fst

/-- A program: extern methods, and a package of fields and methods. -/
structure Program where
  id : NodeId
  externs : List Extern
  package : NodeId
  name : String
  fields : List VarDecl
  methods : List Method

/-- All nodes of a program. -/
def Program.ids (p : Program) : List NodeId :=
  p.id :: (p.externs.flatMap Extern.ids ++
    p.package :: (p.fields.flatMap VarDecl.ids ++ p.methods.flatMap Method.ids))

end DecafStatics
