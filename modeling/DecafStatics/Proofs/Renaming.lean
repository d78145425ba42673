import DecafStatics.Proofs.Resolution

/-!
# Renaming the nodes of a program

The same program can be held by other nodes. `Program.rename` is a program with each node replaced
by another one; what is written stays the same, and so do the names in use and what they belong to.

## Implementation notes

Nothing is assumed of the renaming, which may give one name to two nodes. A program that is held by
a tree again has its nodes in one place each.

## Main definitions

* `Expr.rename`, `Stmt.rename`, `Method.rename`, `Program.rename` — renaming the nodes

## Main results

* `Program.rename_id` — a program whose nodes keep their names is the same program
* `Reference.resolve_rename` — names belong to the same declarations
-/

namespace DecafStatics

variable (ρ : NodeId → NodeId)

/-! ### Expressions -/

def Literal.rename : Literal → Literal
  | int id value => int (ρ id) value
  | bool id value => bool (ρ id) value
  | string id text => string (ρ id) text

namespace Expr

mutual

/-- The expression with its nodes renamed. -/
def rename : Expr → Expr
  | literal l => literal (l.rename ρ)
  | plain id access name => plain (ρ id) access name
  | element id access name index => element (ρ id) access name index.rename
  | unary id op arity operand => unary (ρ id) op arity operand.rename
  | binary id op arity left right => binary (ρ id) op arity left.rename right.rename
  | call id name arguments => call (ρ id) name (renameArguments arguments)

/-- The arguments of a call with their nodes renamed. -/
def renameArguments : List (NodeId × Expr) → List (NodeId × Expr)
  | [] => []
  | (wrapper, e) :: rest => (ρ wrapper, e.rename) :: renameArguments rest

end

end Expr

def Target.rename (target : Target) : Target :=
  ⟨ρ target.id, target.name, target.index.map (Expr.rename ρ)⟩

def Call.rename (call : Call) : Call :=
  ⟨ρ call.id, call.name, Expr.renameArguments ρ call.arguments⟩

/-! ### Statements -/

def Shape.rename : Shape → Shape
  | scalar => scalar
  | array id length => array (ρ id) length
  | initialized value => initialized (value.rename ρ)

def VarDecl.rename (d : VarDecl) : VarDecl := ⟨ρ d.id, d.name, d.ty, d.shape.rename ρ⟩

namespace Stmt

mutual

/-- The statement with its nodes renamed. -/
def rename : Stmt → Stmt
  | assignment id target value => assignment (ρ id) (target.rename ρ) (value.rename ρ)
  | call c => call (c.rename ρ)
  | ifThen id branch condition yes => ifThen (ρ id) (ρ branch) (condition.rename ρ) yes.rename
  | ifElse id branch condition yes other no =>
    ifElse (ρ id) (ρ branch) (condition.rename ρ) yes.rename (ρ other) no.rename
  | loop id condition body => loop (ρ id) (condition.rename ρ) body.rename
  | returnValue id value => returnValue (ρ id) (value.map (Expr.rename ρ))
  | jump id j => jump (ρ id) j
  | block id locals body => block (ρ id) (locals.map (VarDecl.rename ρ)) (renameBody body)

/-- The statements of a block with their nodes renamed. -/
def renameBody : List Stmt → List Stmt
  | [] => []
  | st :: rest => st.rename :: renameBody rest

end

end Stmt

/-! ### Programs -/

def Param.rename (param : Param) : Param := ⟨ρ param.id, param.name, param.ty⟩

def Method.rename (m : Method) : Method where
  id := ρ m.id
  name := m.name
  ty := m.ty
  params := m.params.map (Param.rename ρ)
  body := ρ m.body
  locals := m.locals.map (VarDecl.rename ρ)
  statements := Stmt.renameBody ρ m.statements

def Extern.rename (e : Extern) : Extern :=
  ⟨ρ e.id, e.name, e.ty, e.params.map fun param => (ρ param.1, param.2)⟩

/-- The program with its nodes renamed. -/
def Program.rename (p : Program) : Program where
  id := ρ p.id
  externs := p.externs.map (Extern.rename ρ)
  package := ρ p.package
  name := p.name
  fields := p.fields.map (VarDecl.rename ρ)
  methods := p.methods.map (Method.rename ρ)

/-! ### Parts of what is renamed -/

section Parts

variable {ρ}

@[simp] theorem Literal.id_rename (l : Literal) : (l.rename ρ).id = ρ l.id := by cases l <;> rfl

@[simp] theorem Literal.ty_rename (l : Literal) : (l.rename ρ).ty = l.ty := by cases l <;> rfl

@[simp] theorem Expr.id_rename (e : Expr) : (e.rename ρ).id = ρ e.id := by
  cases e <;> simp [rename, id]

theorem Expr.renameArguments_eq (arguments : List (NodeId × Expr)) :
    renameArguments ρ arguments = arguments.map fun a => (ρ a.1, a.2.rename ρ) := by
  induction arguments with
  | nil => rfl
  | cons a rest ih => rw [renameArguments, ih, List.map_cons]

@[simp] theorem Target.expr_rename (target : Target) :
    (target.rename ρ).expr = target.expr.rename ρ := by
  obtain ⟨id, name, index⟩ := target
  cases index <;> simp [expr, rename, Expr.rename]

@[simp] theorem Call.expr_rename (call : Call) : (call.rename ρ).expr = call.expr.rename ρ := by
  simp [expr, rename, Expr.rename]

@[simp] theorem Shape.length_rename (shape : Shape) : (shape.rename ρ).length = shape.length := by
  cases shape <;> rfl

theorem Stmt.renameBody_eq (body : List Stmt) : renameBody ρ body = body.map (rename ρ) := by
  induction body with
  | nil => rfl
  | cons st rest ih => rw [renameBody, ih, List.map_cons]

@[simp] theorem Method.block_rename (m : Method) : (m.rename ρ).block = m.block.rename ρ := by
  simp [block, rename, Stmt.rename]

end Parts

/-! ### Nodes that keep their names -/

section Identity

theorem map_rename_id {α : Type} {rename : α → α} {l : List α} (h : ∀ a ∈ l, rename a = a) :
    l.map rename = l :=
  (List.map_congr_left h).trans (List.map_id l)

@[simp] theorem Literal.rename_id (l : Literal) : l.rename (fun id => id) = l := by cases l <;> rfl

@[simp] theorem Expr.rename_id (e : Expr) : e.rename (fun id => id) = e := by
  induction e with
  | literal l => simp [rename]
  | plain => rfl
  | element id access name index ih => simp [rename, ih]
  | unary id op arity operand ih => simp [rename, ih]
  | binary id op arity left right ihl ihr => simp [rename, ihl, ihr]
  | call id name arguments ih =>
    have same : renameArguments (fun id => id) arguments = arguments := by
      rw [renameArguments_eq]
      exact map_rename_id fun a ha => by rw [ih a ha]
    rw [rename, same]

@[simp] theorem Target.rename_id (target : Target) : target.rename (fun id => id) = target := by
  obtain ⟨id, name, index⟩ := target
  cases index <;> simp [rename]

@[simp] theorem Call.rename_id (call : Call) : call.rename (fun id => id) = call := by
  have same := Expr.rename_id call.expr
  rw [expr, Expr.rename] at same
  injection same with _ _ arguments
  rw [rename, arguments]

@[simp] theorem Shape.rename_id (shape : Shape) : shape.rename (fun id => id) = shape := by
  cases shape <;> simp [rename]

@[simp] theorem VarDecl.rename_id (d : VarDecl) : d.rename (fun id => id) = d := by
  simp [rename]

@[simp] theorem Stmt.rename_id (st : Stmt) : st.rename (fun id => id) = st := by
  induction st with
  | assignment | call | jump => simp [rename]
  | ifThen id branch condition yes ih => simp [rename, ih]
  | ifElse id branch condition yes other no ihy ihn => simp [rename, ihy, ihn]
  | loop id condition body ih => simp [rename, ih]
  | returnValue id value => cases value <;> simp [rename]
  | block id locals body ih =>
    rw [rename, renameBody_eq, map_rename_id ih, map_rename_id fun d _ => d.rename_id]

@[simp] theorem Method.rename_id (m : Method) : m.rename (fun id => id) = m := by
  have block := Stmt.rename_id m.block
  rw [Method.block, Stmt.rename] at block
  injection block with body locals statements
  have params : ∀ param ∈ m.params, param.rename (fun id => id) = param := fun _ _ => rfl
  rw [rename, locals, statements, map_rename_id params]

/-- **A program whose nodes keep their names is the same program.** -/
@[simp] theorem Program.rename_id (p : Program) : p.rename (fun id => id) = p := by
  have externs : ∀ e ∈ p.externs, e.rename (fun id => id) = e := by simp [Extern.rename]
  rw [rename, map_rename_id externs, map_rename_id fun d _ => d.rename_id,
    map_rename_id fun m _ => m.rename_id]

end Identity

/-! ### Nodes -/

section Nodes

variable {ρ}

@[simp] theorem Expr.ids_rename (e : Expr) : (e.rename ρ).ids = e.ids.map ρ := by
  induction e with
  | literal l => simp [rename, ids]
  | plain => rfl
  | element id access name index ih => simp [rename, ids, ih]
  | unary id op arity operand ih => simp [rename, ids, ih]
  | binary id op arity left right ihl ihr => simp [rename, ids, ihl, ihr]
  | call id name arguments ih =>
    have rest : argumentIds (renameArguments ρ arguments) = (argumentIds arguments).map ρ := by
      induction arguments with
      | nil => rfl
      | cons a rest ihr =>
        obtain ⟨ha, hrest⟩ := List.forall_mem_cons.1 ih
        simp [renameArguments, argumentIds, ha, ihr hrest]
    simp [rename, ids, rest]

@[simp] theorem VarDecl.ids_rename (d : VarDecl) : (d.rename ρ).ids = d.ids.map ρ := by
  obtain ⟨id, name, ty, shape⟩ := d
  cases shape <;> simp [rename, ids, Shape.rename, Shape.first, Shape.second]

@[simp] theorem Stmt.ids_rename (st : Stmt) : (st.rename ρ).ids = st.ids.map ρ := by
  induction st with
  | assignment id target value => simp [rename, ids]
  | call c => simp [rename, ids]
  | ifThen id branch condition yes ih => simp [rename, ids, ih]
  | ifElse id branch condition yes other no ihy ihn => simp [rename, ids, ihy, ihn]
  | loop id condition body ih => simp [rename, ids, ih]
  | returnValue id value => cases value <;> simp [rename, ids]
  | jump => rfl
  | block id locals body ih =>
    have rest : (body.flatMap fun st => (st.rename ρ).ids) = body.flatMap fun st => st.ids.map ρ :=
      List.flatMap_congr ih
    simp [rename, ids, renameBody_eq, bodyIds_eq, List.flatMap_map, List.map_flatMap, rest]

@[simp] theorem Method.ids_rename (m : Method) : (m.rename ρ).ids = m.ids.map ρ := by
  have params : (m.params.map (Param.rename ρ)).map Param.id = (m.params.map Param.id).map ρ := by
    simp [Param.rename, Function.comp_def]
  rw [ids, block_rename, Stmt.ids_rename, ids, List.map_cons, List.map_append, ← params]
  rfl

@[simp] theorem Extern.ids_rename (e : Extern) : (e.rename ρ).ids = e.ids.map ρ := by
  simp [rename, ids, Function.comp_def]

end Nodes

/-! ### Names in use -/

def Declaration.rename (d : Declaration) : Declaration := ⟨ρ d.id, d.name, d.valid⟩

def Reference.rename (r : Reference) : Reference where
  id := ρ r.id
  name := r.name
  scopes := r.scopes.map fun scope => scope.map (Declaration.rename ρ)

section Names

variable {ρ}

theorem Expr.names_rename (e : Expr) :
    (e.rename ρ).names = e.names.map fun use => (ρ use.1, use.2) := by
  induction e with
  | literal | plain => rfl
  | element id access name index ih => simp [rename, names, ih]
  | unary id op arity operand ih => simp [rename, names, ih]
  | binary id op arity left right ihl ihr => simp [rename, names, ihl, ihr]
  | call id name arguments ih =>
    have rest : argumentNames (renameArguments ρ arguments) =
        (argumentNames arguments).map fun use => (ρ use.1, use.2) := by
      induction arguments with
      | nil => rfl
      | cons a rest ihr =>
        obtain ⟨ha, hrest⟩ := List.forall_mem_cons.1 ih
        simp [renameArguments, argumentNames, ha, ihr hrest]
    simp [rename, names, rest]

@[simp] theorem VarDecl.declaration_rename (d : VarDecl) :
    (d.rename ρ).declaration = d.declaration.rename ρ := by
  obtain ⟨id, name, ty, shape⟩ := d
  cases shape <;> rfl

theorem Expr.references_rename {scopes : List (List Declaration)} (e : Expr) :
    (e.rename ρ).references (scopes.map fun scope => scope.map (Declaration.rename ρ)) =
      (e.references scopes).map (Reference.rename ρ) := by
  simp [references, names_rename, Reference.rename]

theorem Stmt.references_rename (st : Stmt) (scopes : List (List Declaration)) :
    (st.rename ρ).references (scopes.map fun scope => scope.map (Declaration.rename ρ)) =
      (st.references scopes).map (Reference.rename ρ) := by
  induction st generalizing scopes with
  | assignment id target value =>
    simp [rename, references, Expr.references_rename]
  | call c => simp [rename, references, Expr.references_rename]
  | ifThen id branch condition yes ih => simp [rename, references, Expr.references_rename, ih]
  | ifElse id branch condition yes other no ihy ihn =>
    simp [rename, references, Expr.references_rename, ihy, ihn]
  | loop id condition body ih => simp [rename, references, Expr.references_rename, ih]
  | returnValue id value => cases value <;> simp [rename, references, Expr.references_rename]
  | jump => rfl
  | block id locals body ih =>
    have inner : (locals.map (VarDecl.rename ρ)).map VarDecl.declaration =
        (locals.map VarDecl.declaration).map (Declaration.rename ρ) := by simp
    rw [rename, references, references, inner, renameBody_eq, bodyReferences_eq, bodyReferences_eq,
      List.map_flatMap, List.flatMap_map]
    exact List.flatMap_congr fun st hst => ih st hst (locals.map VarDecl.declaration :: scopes)

theorem Method.declaration_rename (m : Method) :
    (m.rename ρ).declaration = m.declaration.rename ρ := rfl

theorem Method.references_rename (globals : List Declaration) (m : Method) :
    (m.rename ρ).references (globals.map (Declaration.rename ρ)) =
      (m.references globals).map (Reference.rename ρ) := by
  have params : (m.rename ρ).params.map Param.declaration =
      (m.params.map Param.declaration).map (Declaration.rename ρ) := by
    simp [rename, Param.rename, Param.declaration, Declaration.rename, Function.comp_def]
  rw [references, references, block_rename, params, ← Stmt.references_rename]
  rfl

theorem Program.methodReferences_rename (globals : List Declaration) (methods : List Method) :
    methodReferences (globals.map (Declaration.rename ρ)) (methods.map (Method.rename ρ)) =
      (methodReferences globals methods).map (Reference.rename ρ) := by
  induction methods generalizing globals with
  | nil => rfl
  | cons m rest ih =>
    have behind : globals.map (Declaration.rename ρ) ++ [(m.rename ρ).declaration] =
        (globals ++ [m.declaration]).map (Declaration.rename ρ) := by
      rw [Method.declaration_rename, List.map_append, List.map_singleton]
    rw [List.map_cons, methodReferences, methodReferences, behind, Method.references_rename, ih,
      List.map_append]

theorem Program.declarations_rename (p : Program) :
    (p.rename ρ).declarations = p.declarations.map (Declaration.rename ρ) := by
  simp only [declarations, rename, List.map_append, List.map_cons, List.map_map]
  have fields : VarDecl.declaration ∘ VarDecl.rename ρ =
      Declaration.rename ρ ∘ VarDecl.declaration := funext VarDecl.declaration_rename
  rw [fields]
  rfl

/-- A name belongs to the declaration that it belonged to. -/
theorem Reference.resolve_rename (r : Reference) :
    (r.rename ρ).resolve = r.resolve.map (Declaration.rename ρ) := by
  have inScope : ∀ scope : List Declaration, successful (scope.map (Declaration.rename ρ)) r.name =
      (successful scope r.name).map (Declaration.rename ρ) := by
    intro scope
    simp only [successful, List.find?_map]
    rfl
  rw [resolve, resolve, lookup, lookup, rename]
  dsimp only
  induction r.scopes with
  | nil => rfl
  | cons scope rest ih =>
    rw [List.map_cons, List.findSome?_cons, List.findSome?_cons, inScope, ih]
    cases successful scope r.name <;> rfl

end Names

end DecafStatics
