import DecafStatics.Proofs.Syntax

/-!
# Lexical scoping

Where the names of a program are declared, by the grammar alone. Around each name in use there are
scopes, and a name belongs to the innermost of them in which it is declared with success.

## Implementation notes

A declaration has success if it is the first one of its name in its scope, apart from those that are
no declarations at all: an array that would have no elements leaves its name free.

The scope of a block lists all of its variables. They stand before its statements, so a statement
sees all of them. The global names are those up to the method around, and that method is one of
them. All names before a method are its own or further out, so there are three kinds of scopes, and
blocks nest.

## Main definitions

* `Expr.names` — the names in use in an expression
* `Declaration`, `Reference` — a declaration, and a name in use with the scopes around it
* `Reference.resolve` — the declaration that a name belongs to
* `Program.references` — all names in use in a program
-/

namespace DecafStatics

/-! ### Names in use -/

namespace Expr

mutual

/-- The names that an expression uses, in the order in which they are looked up. -/
def names : Expr → List (NodeId × String)
  | literal _ => []
  | plain id _ name => [(id, name)]
  | element id _ name index => index.names ++ [(id, name)]
  | unary _ _ _ operand => operand.names
  | binary _ _ _ left right => left.names ++ right.names
  | call id name arguments => argumentNames arguments ++ [(id, name)]

/-- The names that the arguments of a call use. -/
def argumentNames : List (NodeId × Expr) → List (NodeId × String)
  | [] => []
  | (_, e) :: rest => e.names ++ argumentNames rest

end

/-- Each name is used at a node of its own. -/
theorem count_names_le (id : NodeId) (e : Expr) :
    (e.names.map Prod.fst).count id ≤ e.ids.count id := by
  induction e with
  | literal l => simp [names]
  | plain id' access name => simp [names, ids]
  | element id' access name index ih =>
    simp only [names, ids, List.map_append, List.count_append, List.count_cons, List.map_cons,
      List.map_nil, List.count_nil]
    omega
  | unary id' op arity operand ih =>
    simp only [names, ids, List.count_cons]
    omega
  | binary id' op arity left right ihl ihr =>
    simp only [names, ids, List.map_append, List.count_append, List.count_cons]
    omega
  | call id' name arguments ih =>
    have rest : ((argumentNames arguments).map Prod.fst).count id ≤
        (argumentIds arguments).count id := by
      induction arguments with
      | nil => simp [argumentNames]
      | cons a rest ihr =>
        obtain ⟨ha, hrest⟩ := List.forall_mem_cons.1 ih
        have := ihr hrest
        simp only [argumentNames, argumentIds, List.map_append, List.count_append, List.count_cons]
        omega
    simp only [names, ids, List.map_append, List.count_append, List.count_cons, List.map_cons,
      List.map_nil, List.count_nil]
    omega

end Expr

/-! ### Declarations and scopes -/

/-- A declaration of a name. -/
structure Declaration where
  id : NodeId
  name : String
  /-- Whether the declaration is one, if the name is free. -/
  valid : Bool
  deriving DecidableEq

/-- The declaration of a name that has success in a scope, which lists its declarations in their
order. -/
def successful (scope : List Declaration) (name : String) : Option Declaration :=
  scope.find? fun d => d.valid && d.name == name

/-- The declaration has success in a scope. -/
def Declaration.Succeeds (scope : List Declaration) (d : Declaration) : Prop :=
  successful scope d.name = some d

instance (scope : List Declaration) (d : Declaration) : Decidable (d.Succeeds scope) :=
  inferInstanceAs (Decidable (successful scope d.name = some d))

/-- The declaration of a name in the innermost scope that has one, the scopes from the inside
out. -/
def lookup (scopes : List (List Declaration)) (name : String) : Option Declaration :=
  scopes.findSome? fun scope => successful scope name

/-- A name in use, and the scopes around it, from the inside out. -/
structure Reference where
  id : NodeId
  name : String
  scopes : List (List Declaration)

/-- The declaration that a name belongs to. -/
def Reference.resolve (r : Reference) : Option Declaration := lookup r.scopes r.name

def VarDecl.declaration (d : VarDecl) : Declaration where
  id := d.id
  name := d.name
  valid := match d.shape with
    | .array _ length => 1 ≤ length
    | .scalar | .initialized _ => true

def Param.declaration (param : Param) : Declaration := ⟨param.id, param.name, true⟩

def Method.declaration (m : Method) : Declaration := ⟨m.id, m.name, true⟩

def Extern.declaration (e : Extern) : Declaration := ⟨e.id, e.name, true⟩

/-! ### Names in use in a program -/

def Expr.references (scopes : List (List Declaration)) (e : Expr) : List Reference :=
  e.names.map fun use => ⟨use.1, use.2, scopes⟩

namespace Stmt

mutual

/-- The names in use in a statement. -/
def references (scopes : List (List Declaration)) : Stmt → List Reference
  | assignment _ target value => target.expr.references scopes ++ value.references scopes
  | call c => c.expr.references scopes
  | ifThen _ _ condition yes => condition.references scopes ++ yes.references scopes
  | ifElse _ _ condition yes _ no =>
    condition.references scopes ++ yes.references scopes ++ no.references scopes
  | loop _ condition body => condition.references scopes ++ body.references scopes
  | returnValue _ value => value.toList.flatMap fun e => e.references scopes
  | jump _ _ => []
  | block _ locals body => bodyReferences (locals.map VarDecl.declaration :: scopes) body

/-- The names in use in the statements of a block. -/
def bodyReferences (scopes : List (List Declaration)) : List Stmt → List Reference
  | [] => []
  | st :: rest => st.references scopes ++ bodyReferences scopes rest

end

end Stmt

/-- The names in use in a method, where these are the global names up to its own. -/
def Method.references (globals : List Declaration) (m : Method) : List Reference :=
  m.block.references [m.params.map Param.declaration, globals]

namespace Program

/-- The global names of a program, but for its methods. -/
def declarations (p : Program) : List Declaration :=
  p.externs.map Extern.declaration ++ ⟨p.package, p.name, true⟩ ::
    p.fields.map VarDecl.declaration

/-- The names in use in methods, behind some global names. -/
def methodReferences (globals : List Declaration) : List Method → List Reference
  | [] => []
  | m :: rest => m.references (globals ++ [m.declaration]) ++
      methodReferences (globals ++ [m.declaration]) rest

/-- The names in use in a program, in the order in which they are looked up. -/
def references (p : Program) : List Reference := methodReferences p.declarations p.methods

end Program

end DecafStatics
