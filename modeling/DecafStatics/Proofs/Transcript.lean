import DecafStatics.Proofs.Context

/-!
# Transcripts

What the check of a program leaves behind, read off the program. There is no state and no tree
here: each construct has its events, a function of the construct and of the context it stands in,
and each declaration has the context behind it.

## Implementation notes

The events of a construct are in the order in which they happen, which is not the order of the
text: the index of an element and the arguments of a call come before the name, and the type of an
expression comes last.

The symbol of a method is entered before its inside is checked, but is given the size of the frame
that the inside turns out to need. The transcript has that size from the start.

## Main definitions

* `Expr.type`, `Expr.events` — the type of an expression, and what typing it leaves behind
* `Stmt.events` — what checking a statement leaves behind
* `VarDecl.next`, `Method.next` — the context behind a declaration
* `Program.events` — the transcript of a program
-/

namespace DecafStatics

/-- The complaint about a type that is known and is not the one that is wanted. -/
def mismatch (wanted : Ty) (received : Option Ty) (id : NodeId) : List Event :=
  match received with
  | none => []
  | some ty => if ty = wanted then [] else [.complain (.typeMismatch wanted ty) id]

/-- The mark of a type that is known. -/
def typing (id : NodeId) (ty : Option Ty) : List Event :=
  match ty with
  | none => []
  | some ty => [.type id ty]

/-- A name in use: a link to what it denotes and what `judge` has to say about that, or the
complaint that it denotes nothing. -/
def reference (Γ : Env) (id : NodeId) (name : String) (judge : Binding → List Event) :
    List Event :=
  match Γ name with
  | none => [.complain (.undeclaredIdentifier name) id]
  | some b => .link id b.id :: judge b

/-- The complaint about a name of one sort that is used as another. -/
def misuse (name : String) (b : Binding) (used : SymbolKind) (id : NodeId) : List Event :=
  if b.symbol.kind = used then [] else [.complain (.kindMismatch name used b.symbol.kind) id]

/-- The complaint about arguments that do not fit, if all of them have a type. -/
def misfit (name : String) (b : Binding) (types : List (Option Ty)) (id : NodeId) :
    List Event :=
  if types.all Option.isSome ∧ b.formals.map some ≠ types then
    [.complain (.parameterMismatch name b.formals.length types.length) id]
  else []

namespace Expr

/-- The type that checking gives an expression. -/
def type (Γ : Env) : Expr → Option Ty
  | literal l => some l.ty
  | plain _ _ name | element _ _ name _ => (Γ name).map fun b => b.symbol.ty
  | unary _ op _ _ | binary _ op _ _ _ => some op.cls.result
  | call _ name _ => (Γ name).bind fun b =>
    if b.symbol.kind.isCallable then some b.symbol.ty else none

mutual

/-- What typing an expression leaves behind, but for the mark of its type. -/
def findings (Γ : Env) : Expr → List Event
  | literal _ => []
  | plain id _ name => reference Γ id name fun b => misuse name b .scalar id
  | element id _ name index =>
    index.findings Γ ++ typing index.id (index.type Γ) ++
      reference Γ id name fun b =>
        misuse name b .array id ++ mismatch .int (index.type Γ) index.id
  | unary _ op _ operand =>
    operand.findings Γ ++ typing operand.id (operand.type Γ) ++
      (op.cls.operand.wanted (operand.type Γ)).elim [] fun wanted =>
        mismatch wanted (operand.type Γ) operand.id
  | binary _ op _ left right =>
    left.findings Γ ++ typing left.id (left.type Γ) ++
      (right.findings Γ ++ typing right.id (right.type Γ)) ++
      (op.cls.operand.wanted (left.type Γ)).elim [] fun wanted =>
        mismatch wanted (left.type Γ) left.id ++ mismatch wanted (right.type Γ) right.id
  | call id name arguments =>
    argumentEvents Γ arguments ++
      reference Γ id name fun b =>
        if b.symbol.kind.isCallable then misfit name b (arguments.map fun a => a.2.type Γ) id
        else [.complain (.kindMismatch name .method b.symbol.kind) id]

/-- What typing the arguments of a call leaves behind. -/
def argumentEvents (Γ : Env) : List (NodeId × Expr) → List Event
  | [] => []
  | (wrapper, e) :: rest =>
    e.findings Γ ++ typing e.id (e.type Γ) ++ typing wrapper (e.type Γ) ++ argumentEvents Γ rest

end

/-- What typing an expression leaves behind. -/
def events (Γ : Env) (e : Expr) : List Event := e.findings Γ ++ typing e.id (e.type Γ)

section Equations

variable (Γ : Env) (id : NodeId) (op : Operator) (access : Access) (name : String)

@[simp] theorem type_literal (l : Literal) : (literal l).type Γ = some l.ty := rfl

@[simp] theorem type_plain :
    (plain id access name).type Γ = (Γ name).map fun b => b.symbol.ty := rfl

@[simp] theorem type_element (index : Expr) :
    (element id access name index).type Γ = (Γ name).map fun b => b.symbol.ty := rfl

@[simp] theorem type_unary (arity : op.cls.arity = 1) (operand : Expr) :
    (unary id op arity operand).type Γ = some op.cls.result := rfl

@[simp] theorem type_binary (arity : op.cls.arity = 2) (left right : Expr) :
    (binary id op arity left right).type Γ = some op.cls.result := rfl

theorem findings_plain : (plain id access name).findings Γ =
    reference Γ id name fun b => misuse name b .scalar id := rfl

theorem findings_element (index : Expr) : (element id access name index).findings Γ =
    index.events Γ ++ reference Γ id name fun b =>
      misuse name b .array id ++ mismatch .int (index.type Γ) index.id := rfl

theorem findings_unary (arity : op.cls.arity = 1) (operand : Expr) :
    (unary id op arity operand).findings Γ = operand.events Γ ++
      (op.cls.operand.wanted (operand.type Γ)).elim [] fun wanted =>
        mismatch wanted (operand.type Γ) operand.id := rfl

theorem findings_binary (arity : op.cls.arity = 2) (left right : Expr) :
    (binary id op arity left right).findings Γ = left.events Γ ++ right.events Γ ++
      (op.cls.operand.wanted (left.type Γ)).elim [] fun wanted =>
        mismatch wanted (left.type Γ) left.id ++ mismatch wanted (right.type Γ) right.id := rfl

end Equations

theorem argumentEvents_eq (Γ : Env) (arguments : List (NodeId × Expr)) :
    argumentEvents Γ arguments =
      arguments.flatMap fun a => a.2.events Γ ++ typing a.1 (a.2.type Γ) := by
  induction arguments with
  | nil => rfl
  | cons a rest ih => rw [argumentEvents, ih, List.flatMap_cons, events]

end Expr

/-! ### Expressions enter no symbols -/

section Quiet

variable {Γ : Env} {id : NodeId}

@[simp] theorem declared_mismatch (wanted : Ty) (received : Option Ty) (id : NodeId) :
    Event.declared (mismatch wanted received id) = [] := by
  unfold mismatch
  split
  · rfl
  · split <;> rfl

@[simp] theorem declared_typing (id : NodeId) (ty : Option Ty) :
    Event.declared (typing id ty) = [] := by
  cases ty <;> rfl

@[simp] theorem declared_misuse (name : String) (b : Binding) (used : SymbolKind) (id : NodeId) :
    Event.declared (misuse name b used id) = [] := by
  rw [misuse]
  split <;> rfl

@[simp] theorem declared_misfit (name : String) (b : Binding) (types : List (Option Ty))
    (id : NodeId) : Event.declared (misfit name b types id) = [] := by
  rw [misfit]
  split <;> rfl

theorem declared_reference {name : String} {judge : Binding → List Event}
    (h : ∀ b, Event.declared (judge b) = []) :
    Event.declared (reference Γ id name judge) = [] := by
  rw [reference]
  split
  · rfl
  · exact h _

theorem declared_elim {ty : Option Ty} {judge : Ty → List Event}
    (h : ∀ ty, Event.declared (judge ty) = []) : Event.declared (ty.elim [] judge) = [] := by
  cases ty with
  | none => rfl
  | some ty => exact h ty

@[simp] theorem Expr.declared_findings (e : Expr) : Event.declared (e.findings Γ) = [] := by
  induction e with
  | literal l => rfl
  | plain id access name => exact declared_reference fun b => by simp
  | element id access name index ih =>
    rw [findings_element, Event.declared_append, declared_reference fun b => by simp]
    simp [events, ih]
  | unary id op arity operand ih =>
    rw [findings_unary, Event.declared_append, declared_elim fun ty => by simp]
    simp [events, ih]
  | binary id op arity left right ihl ihr =>
    rw [findings_binary, Event.declared_append, declared_elim fun ty => by simp]
    simp [events, ihl, ihr]
  | call id name arguments ih =>
    rw [findings, Event.declared_append, declared_reference, List.append_nil]
    · clear name id
      induction arguments with
      | nil => rfl
      | cons a rest ihr =>
        obtain ⟨ha, hrest⟩ := List.forall_mem_cons.1 ih
        simp [argumentEvents, ha, ihr hrest]
    · intro b
      split
      · exact declared_misfit ..
      · rfl

@[simp] theorem Expr.declared_events (e : Expr) : Event.declared (e.events Γ) = [] := by
  simp [events]

end Quiet

/-! ### Which nodes the events of an expression are about -/

section Nodes

variable {Γ : Env} {id : NodeId} {ev : Event}

theorem node_of_mem_mismatch {wanted : Ty} {received : Option Ty}
    (h : ev ∈ mismatch wanted received id) : ev.node = id := by
  unfold mismatch at h
  split at h
  · cases h
  · split at h
    · cases h
    · rw [List.mem_singleton.1 h]
      rfl

theorem node_of_mem_typing {ty : Option Ty} (h : ev ∈ typing id ty) : ev.node = id := by
  unfold typing at h
  split at h
  · cases h
  · rw [List.mem_singleton.1 h]
    rfl

theorem node_of_mem_misuse {name : String} {b : Binding} {used : SymbolKind}
    (h : ev ∈ misuse name b used id) : ev.node = id := by
  rw [misuse] at h
  split at h
  · cases h
  · rw [List.mem_singleton.1 h]
    rfl

theorem node_of_mem_misfit {name : String} {b : Binding} {types : List (Option Ty)}
    (h : ev ∈ misfit name b types id) : ev.node = id := by
  rw [misfit] at h
  split at h
  · rw [List.mem_singleton.1 h]
    rfl
  · cases h

theorem node_mem_of_mem_reference {name : String} {judge : Binding → List Event}
    {ids : List NodeId} (hid : id ∈ ids) (hjudge : ∀ b, ∀ ev ∈ judge b, ev.node ∈ ids)
    (h : ev ∈ reference Γ id name judge) : ev.node ∈ ids := by
  rw [reference] at h
  split at h
  · rw [List.mem_singleton.1 h]
    exact hid
  · rcases List.mem_cons.1 h with rfl | h
    · exact hid
    · exact hjudge _ ev h

theorem node_mem_of_mem_elim {ty : Option Ty} {judge : Ty → List Event} {ids : List NodeId}
    (hjudge : ∀ ty, ∀ ev ∈ judge ty, ev.node ∈ ids) (h : ev ∈ ty.elim [] judge) : ev.node ∈ ids := by
  cases ty with
  | none => cases h
  | some ty => exact hjudge ty ev h

/-- Behind what is found out about an expression there is only its own mark. -/
theorem Expr.node_mem_of_findings {e : Expr} (hfindings : ∀ ev ∈ e.findings Γ, ev.node ∈ e.ids) :
    ∀ ev ∈ e.events Γ, ev.node ∈ e.ids := by
  intro ev h
  rcases List.mem_append.1 h with h | h
  · exact hfindings ev h
  · rw [node_of_mem_typing h]
    exact e.id_mem_ids

theorem Expr.node_mem_findings (e : Expr) : ∀ ev ∈ e.findings Γ, ev.node ∈ e.ids := by
  induction e with
  | literal l =>
    intro ev h
    cases h
  | plain id access name =>
    intro ev h
    refine node_mem_of_mem_reference (by simp [ids]) (fun b ev h => ?_) h
    simp [node_of_mem_misuse h, ids]
  | element id access name index ih =>
    intro ev h
    rcases List.mem_append.1 h with h | h
    · exact List.mem_cons_of_mem _ (node_mem_of_findings ih ev h)
    · refine node_mem_of_mem_reference (by simp [ids]) (fun b ev h => ?_) h
      rcases List.mem_append.1 h with h | h
      · simp [node_of_mem_misuse h, ids]
      · simp [node_of_mem_mismatch h, ids, index.id_mem_ids]
  | unary id op arity operand ih =>
    intro ev h
    rcases List.mem_append.1 h with h | h
    · exact List.mem_cons_of_mem _ (node_mem_of_findings ih ev h)
    · refine node_mem_of_mem_elim (fun wanted ev h => ?_) h
      simp [node_of_mem_mismatch h, ids, operand.id_mem_ids]
  | binary id op arity left right ihl ihr =>
    intro ev h
    rcases List.mem_append.1 h with h | h
    · rcases List.mem_append.1 h with h | h
      · simp [ids, node_mem_of_findings ihl ev h]
      · simp [ids, node_mem_of_findings ihr ev h]
    · refine node_mem_of_mem_elim (fun wanted ev h => ?_) h
      rcases List.mem_append.1 h with h | h
      · simp [node_of_mem_mismatch h, ids, left.id_mem_ids]
      · simp [node_of_mem_mismatch h, ids, right.id_mem_ids]
  | call id name arguments ih =>
    intro ev h
    rcases List.mem_append.1 h with h | h
    · rw [argumentEvents_eq, List.mem_flatMap] at h
      obtain ⟨a, ha, h⟩ := h
      rw [ids, argumentIds_eq]
      refine List.mem_cons_of_mem _ (List.mem_flatMap.2 ⟨a, ha, ?_⟩)
      rcases List.mem_append.1 h with h | h
      · exact List.mem_cons_of_mem _ (node_mem_of_findings (ih a ha) ev h)
      · simp [node_of_mem_typing h]
    · refine node_mem_of_mem_reference (by simp [ids]) (fun b ev h => ?_) h
      split at h
      · simp [node_of_mem_misfit h, ids]
      · rw [List.mem_singleton.1 h]
        simp [Event.node, ids]

/-- The events of an expression are about its own nodes. -/
theorem Expr.node_mem_ids (e : Expr) : ∀ ev ∈ e.events Γ, ev.node ∈ e.ids :=
  node_mem_of_findings e.node_mem_findings

end Nodes

/-! ### Declarations -/

/-- The length of an array. -/
def Shape.length : Shape → Option Int32
  | array _ length => some length
  | scalar | initialized _ => none

/-- What the initial value of a variable leaves behind. -/
def Shape.events (ty : Ty) : Shape → List Event
  | initialized value => .type value.id value.ty :: mismatch ty (some value.ty) value.id
  | scalar | array .. => []

namespace VarDecl

/-- What the declaration of a variable leaves behind. -/
def events (c : Context) (d : VarDecl) : List Event :=
  match Check.variableShape d.name d.shape.length with
  | .error problem => [.complain problem d.id]
  | .ok (kind, size) => c.storing d.id d.name d.ty kind size ++ d.shape.events d.ty

/-- The context behind the declaration of a variable. -/
def next (c : Context) (d : VarDecl) : Context :=
  match Check.variableShape d.name d.shape.length with
  | .error _ => c
  | .ok (kind, size) => c.store d.id d.name d.ty kind size

end VarDecl

namespace Param

def events (c : Context) (param : Param) : List Event :=
  c.storing param.id param.name param.ty .scalar 1

def next (c : Context) (param : Param) : Context :=
  c.store param.id param.name param.ty .scalar 1

end Param

@[simp] theorem declared_shape (ty : Ty) (shape : Shape) :
    Event.declared (shape.events ty) = [] := by
  cases shape with
  | scalar => rfl
  | array => rfl
  | initialized value => simp [Shape.events, Event.symbol?]

theorem Param.grows (c : Context) (param : Param) : c.Grows (param.events c) (param.next c) :=
  c.grows_store ..

theorem VarDecl.grows (c : Context) (d : VarDecl) : c.Grows (d.events c) (d.next c) := by
  rw [events, next]
  split
  · exact (Context.Grows.refl c).append_quiet rfl
  · exact (c.grows_store ..).append_quiet (declared_shape ..)

namespace Extern

/-- The symbol of an extern method. -/
def symbol (c : Context) (e : Extern) : Symbol :=
  ⟨e.name, e.ty, .externMethod, c.level, 1, 0, (e.params.map Prod.fst).head?⟩

def events (c : Context) (e : Extern) : List Event := c.declaring e.id (e.symbol c)

def next (c : Context) (e : Extern) : Context :=
  c.declare e.id (e.symbol c) (e.params.map Prod.snd)

end Extern

/-! ### Statements -/

/-- What a condition leaves behind. -/
def conditionEvents (Γ : Env) (e : Expr) : List Event :=
  e.events Γ ++ mismatch .bool (e.type Γ) e.id

/-- What a return leaves behind. -/
def returnEvents (c : Context) (id : NodeId) (value : Option Expr) : List Event :=
  (value.elim [] fun e => e.events c.find?) ++
    match c.method with
    | none => []
    | some enclosing =>
      match value, enclosing.ty with
      | none, .void => []
      | none, _ | some _, .void => [.complain (.invalidReturn enclosing.name) id]
      | some e, wanted => mismatch wanted (e.type c.find?) id

/-- The scope of a block, behind the declarations of its variables. -/
def Context.locals (c : Context) (locals : List VarDecl) : Context :=
  locals.foldl VarDecl.next c.inner

namespace Stmt

mutual

/-- What checking a statement leaves behind. -/
def events (c : Context) : Stmt → List Event
  | assignment id target value =>
    target.expr.events c.find? ++ value.events c.find? ++
      (target.expr.type c.find?).elim [] fun wanted => mismatch wanted (value.type c.find?) id
  | call c' => c'.expr.events c.find?
  | ifThen _ _ condition yes => conditionEvents c.find? condition ++ yes.events c
  | ifElse _ _ condition yes _ no =>
    conditionEvents c.find? condition ++ yes.events c ++ no.events (c.after (yes.events c))
  | loop _ condition body =>
    conditionEvents c.find? condition ++ body.events { c with loops := c.loops + 1 }
  | returnValue id value => returnEvents c id value
  | jump id j => if c.loops = 0 then [.complain (.outsideLoop j.word) id] else []
  | block _ locals body =>
    c.inner.along VarDecl.events VarDecl.next locals ++ bodyEvents (c.locals locals) body

/-- What checking the statements of a block leaves behind. -/
def bodyEvents (c : Context) : List Stmt → List Event
  | [] => []
  | st :: rest => st.events c ++ bodyEvents (c.after (st.events c)) rest

end

/-- The statements of a block come one after the other, each behind the one before. -/
theorem bodyEvents_eq (c : Context) (body : List Stmt) :
    bodyEvents c body =
      c.along (fun c st => st.events c) (fun c st => c.after (st.events c)) body := by
  induction body generalizing c with
  | nil => rfl
  | cons st rest ih => rw [bodyEvents, Context.along, ih]

theorem foldl_after (c : Context) (body : List Stmt) :
    body.foldl (fun c st => c.after (st.events c)) c = c.after (bodyEvents c body) := by
  induction body generalizing c with
  | nil => exact (Context.after_of_declared_eq_nil rfl).symm
  | cons st rest ih => rw [List.foldl_cons, ih, Context.after_append, bodyEvents]

end Stmt

@[simp] theorem declared_conditionEvents (Γ : Env) (e : Expr) :
    Event.declared (conditionEvents Γ e) = [] := by
  simp [conditionEvents]

@[simp] theorem declared_returnEvents (c : Context) (id : NodeId) (value : Option Expr) :
    Event.declared (returnEvents c id value) = [] := by
  have expression : Event.declared (value.elim [] fun e => e.events c.find?) = [] := by
    cases value <;> simp
  rw [returnEvents, Event.declared_append, expression]
  cases c.method with
  | none => rfl
  | some enclosing =>
    cases value <;> cases h : enclosing.ty <;> simp [h, Event.symbol?]

/-! ### Programs -/

namespace Method

/-- The symbol of a method that needs `words` words. -/
def symbol (c : Context) (m : Method) (words : Nat) : Symbol :=
  ⟨m.name, m.ty, .method, c.level, words, 0, (m.params.map Param.id).head?⟩

def formals (m : Method) : List Ty := m.params.map Param.ty

/-- The scope of a method, before its parameters. -/
def scope (c : Context) (m : Method) : Context :=
  { c.declare m.id (m.symbol c frameHeaderWords) m.formals with
    level := c.level + 1
    frame := .starting frameHeaderWords }

/-- The scope of a method, behind its parameters. -/
def within (c : Context) (m : Method) : Context :=
  { m.params.foldl Param.next (m.scope c) with method := some ⟨m.name, m.ty⟩ }

/-- The scope of a method, behind its body. -/
def leaving (c : Context) (m : Method) : Context :=
  { (m.within c).after (m.block.events (m.within c)) with method := none }

/-- What the inside of a method leaves behind. -/
def inside (c : Context) (m : Method) : List Event :=
  (m.scope c).along Param.events Param.next m.params ++ m.block.events (m.within c)

/-- How many words a method needs. -/
def words (c : Context) (m : Method) : Nat := (m.leaving c).frame.peak

def events (c : Context) (m : Method) : List Event :=
  c.declaring m.id (m.symbol c (m.words c)) ++ m.inside c ++ [.size m.id (m.words c)]

/-- The context behind a method, in which nothing of its inside is in sight. -/
def next (c : Context) (m : Method) : Context :=
  { c.declare m.id (m.symbol c (m.words c)) m.formals with
    count := (m.leaving c).count
    method := none }

end Method

namespace Program

def symbol (c : Context) (p : Program) : Symbol := ⟨p.name, .void, .package, c.level, 1, 0, none⟩

/-- The context behind the extern methods of a program. -/
def afterExterns (p : Program) : Context := p.externs.foldl Extern.next .start

/-- The context behind the name of the package. -/
def afterName (p : Program) : Context :=
  p.afterExterns.declare p.package (p.symbol p.afterExterns) []

/-- The context behind the fields of a program. -/
def afterFields (p : Program) : Context := p.fields.foldl VarDecl.next p.afterName

/-- The context behind the methods of a program. -/
def afterMethods (p : Program) : Context := p.methods.foldl Method.next p.afterFields

/-- What checking a program leaves behind. -/
def events (p : Program) : List Event :=
  Context.start.along Extern.events Extern.next p.externs ++
    p.afterExterns.declaring p.package (p.symbol p.afterExterns) ++
    p.afterName.along VarDecl.events VarDecl.next p.fields ++
    p.afterFields.along Method.events Method.next p.methods

/-- What checking a program leaves behind before its methods. -/
def preamble (p : Program) : List Event :=
  Context.start.along Extern.events Extern.next p.externs ++
    (p.afterExterns.declaring p.package (p.symbol p.afterExterns) ++
      p.afterName.along VarDecl.events VarDecl.next p.fields)

theorem events_eq_preamble (p : Program) :
    p.events = p.preamble ++ p.afterFields.along Method.events Method.next p.methods := by
  simp only [events, preamble, List.append_assoc]

end Program

end DecafStatics
