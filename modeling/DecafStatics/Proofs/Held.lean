import DecafStatics.Proofs.Syntax

/-!
# Trees that hold programs

`Tree.HasProgram t p` says that the tree `t` holds the program `p`, each construct at the node
whose handle it carries. It is about the text of the tree only, which is why a program is still
there after checking.

That each node stands in one place only is a separate matter, `Program.ids` without repetitions.
A tree with shared nodes holds programs as well, and each of them lists the shared node more than
once.

## Implementation notes

Where a construct stands alone its node may still have a `next`, which nothing reads. The root and
the package must not, because they are visited as chains of one.

## Main definitions

* `Tree.Has` — having a node of a certain kind
* `Tree.HasExpr`, `Tree.HasStmt`, `Tree.HasProgram` — holding a construct

## Main results

* `Tree.HasProgram.lt_size` — a tree that holds a program has all of its nodes
* `Tree.HasProgram.of_bare_eq` — trees of the same text hold the same programs
-/

namespace DecafStatics.Tree

/-- The tree has a node with this handle, and `p` is true of it. -/
def Has (t : Tree) (id : NodeId) (p : Node → Prop) : Prop := ∃ n, t.node id = .ok n ∧ p n

def HasLiteral (t : Tree) : Literal → Prop
  | .int id value => t.Has id fun n => n.kind = .intConstant ∧ n.value = value
  | .bool id value => t.Has id fun n => n.kind = .boolConstant ∧ n.value = value
  | .string id text => t.Has id fun n => n.kind = .stringConstant ∧ n.text = text

/-- The wrapper of an argument, around the node of an expression. -/
def HasArgument (t : Tree) (wrapper expression : NodeId) : Prop :=
  t.Has wrapper fun n => n.kind = .argument ∧ n.first = some expression

/-- The tree holds an expression. -/
inductive HasExpr (t : Tree) : Expr → Prop where
  | literal {l : Literal} : t.HasLiteral l → HasExpr t (.literal l)
  | plain {id : NodeId} {access : Access} {name : String} :
      t.Has id (fun n => n.kind = access.kind ∧ n.text = name ∧ n.first = none) →
      HasExpr t (.plain id access name)
  | element {id : NodeId} {access : Access} {name : String} {index : Expr} :
      t.Has id (fun n => n.kind = access.kind ∧ n.text = name ∧ n.first = some index.id) →
      HasExpr t index → HasExpr t (.element id access name index)
  | unary {id : NodeId} {op : Operator} {arity : op.cls.arity = 1} {operand : Expr} :
      t.Has id (fun n => n.kind = .operation ∧ n.operator = some op ∧
        n.first = some operand.id ∧ n.second = none) →
      HasExpr t operand → HasExpr t (.unary id op arity operand)
  | binary {id : NodeId} {op : Operator} {arity : op.cls.arity = 2} {left right : Expr} :
      t.Has id (fun n => n.kind = .operation ∧ n.operator = some op ∧
        n.first = some left.id ∧ n.second = some right.id) →
      HasExpr t left → HasExpr t right → HasExpr t (.binary id op arity left right)
  | call {id : NodeId} {name : String} {arguments : List (NodeId × Expr)} :
      t.Has id (fun n => n.kind = .call ∧ n.text = name ∧
        t.Linked n.first (arguments.map Prod.fst)) →
      (∀ a ∈ arguments, t.HasArgument a.1 a.2.id) → (∀ a ∈ arguments, HasExpr t a.2) →
      HasExpr t (.call id name arguments)

/-- The tree holds what a variable is declared as. -/
def HasShape (t : Tree) : Shape → Prop
  | .scalar => True
  | .array id length => t.Has id fun n => n.kind = .intConstant ∧ n.value = length
  | .initialized value => t.HasLiteral value

def HasVarDecl (t : Tree) (d : VarDecl) : Prop :=
  t.Has d.id (fun n => n.kind = .variableDecl ∧ n.text = d.name ∧ n.ty = some d.ty ∧
    n.first = d.shape.first ∧ n.second = d.shape.second) ∧ t.HasShape d.shape

/-- The tree holds a statement. -/
inductive HasStmt (t : Tree) : Stmt → Prop where
  | assignment {id : NodeId} {target : Target} {value : Expr} :
      t.Has id (fun n => n.kind = .assignment ∧ n.first = some target.id ∧
        n.second = some value.id) →
      t.HasExpr target.expr → t.HasExpr value → HasStmt t (.assignment id target value)
  | call {c : Call} : t.HasExpr c.expr → HasStmt t (.call c)
  | ifThen {id branch : NodeId} {condition : Expr} {yes : Stmt} :
      t.Has id (fun n => n.kind = .conditional ∧ n.first = some branch ∧ n.second = none) →
      t.Has branch (fun n => n.kind = .thenBranch ∧ n.first = some condition.id ∧
        n.second = some yes.id) →
      t.HasExpr condition → HasStmt t yes → HasStmt t (.ifThen id branch condition yes)
  | ifElse {id branch : NodeId} {condition : Expr} {yes : Stmt} {other : NodeId} {no : Stmt} :
      t.Has id (fun n => n.kind = .conditional ∧ n.first = some branch ∧
        n.second = some other) →
      t.Has branch (fun n => n.kind = .thenBranch ∧ n.first = some condition.id ∧
        n.second = some yes.id) →
      t.Has other (fun n => n.kind = .elseBranch ∧ n.first = some no.id) →
      t.HasExpr condition → HasStmt t yes → HasStmt t no →
      HasStmt t (.ifElse id branch condition yes other no)
  | loop {id : NodeId} {condition : Expr} {body : Stmt} :
      t.Has id (fun n => n.kind = .loop ∧ n.first = some condition.id ∧
        n.second = some body.id) →
      t.HasExpr condition → HasStmt t body → HasStmt t (.loop id condition body)
  | returnValue {id : NodeId} {value : Option Expr} :
      t.Has id (fun n => n.kind = .returnValue ∧ n.first = value.map Expr.id) →
      (∀ e ∈ value, t.HasExpr e) → HasStmt t (.returnValue id value)
  | jump {id : NodeId} {j : Jump} : t.Has id (fun n => n.kind = j.kind) → HasStmt t (.jump id j)
  | block {id : NodeId} {locals : List VarDecl} {body : List Stmt} :
      t.Has id (fun n => n.kind = .block ∧ t.Linked n.first (locals.map VarDecl.id) ∧
        t.Linked n.second (body.map Stmt.id)) →
      (∀ d ∈ locals, t.HasVarDecl d) → (∀ st ∈ body, HasStmt t st) →
      HasStmt t (.block id locals body)

def HasParam (t : Tree) (param : Param) : Prop :=
  t.Has param.id fun n => n.kind = .parameter ∧ n.text = param.name ∧ n.ty = some param.ty

structure HasMethod (t : Tree) (m : Method) : Prop where
  node : t.Has m.id fun n => n.kind = .methodDecl ∧ n.text = m.name ∧ n.ty = some m.ty ∧
    t.Linked n.first (m.params.map Param.id) ∧ n.second = some m.body
  params : ∀ param ∈ m.params, t.HasParam param
  block : t.HasStmt m.block

structure HasExtern (t : Tree) (e : Extern) : Prop where
  node : t.Has e.id fun n => n.kind = .externDecl ∧ n.text = e.name ∧ n.ty = some e.ty ∧
    t.Linked n.first (e.params.map Prod.fst)
  params : ∀ param ∈ e.params, t.Has param.1 fun n => n.kind = .externType ∧ n.ty = some param.2

/-- The tree holds a program. -/
structure HasProgram (t : Tree) (p : Program) : Prop where
  root : t.Has p.id fun n => n.kind = .program ∧ n.next = none ∧
    t.Linked n.first (p.externs.map Extern.id) ∧ n.second = some p.package
  package : t.Has p.package fun n => n.kind = .package ∧ n.text = p.name ∧ n.next = none ∧
    t.Linked n.first (p.fields.map VarDecl.id) ∧ t.Linked n.second (p.methods.map Method.id)
  externs : ∀ e ∈ p.externs, t.HasExtern e
  fields : ∀ d ∈ p.fields, t.HasVarDecl d
  methods : ∀ m ∈ p.methods, t.HasMethod m

namespace Has

variable {t : Tree} {id : NodeId} {p q : Node → Prop}

theorem imp (h : t.Has id p) (hpq : ∀ n, p n → q n) : t.Has id q :=
  Exists.imp (fun n hn => ⟨hn.1, hpq n hn.2⟩) h

theorem iff_of_node {n : Node} (hn : t.node id = .ok n) : t.Has id p ↔ p n := by
  simp [Has, hn]

theorem lt_size (h : t.Has id p) : id.index < t.size := by
  obtain ⟨n, hn, -⟩ := h
  exact lt_of_node_eq_ok hn

end Has

theorem HasLiteral.isExpression {t : Tree} {l : Literal} (h : t.HasLiteral l) :
    t.Has l.id fun n => n.kind.isExpression = true := by
  cases l <;> exact h.imp fun n hn => by rw [hn.1]; rfl

/-- The node of an expression is one that is typed by checking. -/
theorem HasExpr.isExpression {t : Tree} {e : Expr} (h : t.HasExpr e) :
    t.Has e.id fun n => n.kind.isExpression = true := by
  cases h with
  | literal hl => exact hl.isExpression
  | @plain id access name hn => exact hn.imp fun n hn => by rw [hn.1]; cases access <;> rfl
  | @element id access name index hn _ =>
    exact hn.imp fun n hn => by rw [hn.1]; cases access <;> rfl
  | unary hn _ => exact hn.imp fun n hn => by rw [hn.1]; rfl
  | binary hn _ _ => exact hn.imp fun n hn => by rw [hn.1]; rfl
  | call hn _ _ => exact hn.imp fun n hn => by rw [hn.1]; rfl

theorem Linked.head_eq {t : Tree} {head : Option NodeId} {ids : List NodeId}
    (h : t.Linked head ids) : head = ids.head? := by
  cases h <;> rfl

/-! ### The nodes of what is held -/

section Nodes

variable {t : Tree}

theorem HasLiteral.lt_size {l : Literal} (h : t.HasLiteral l) : l.id.index < t.size :=
  h.isExpression.lt_size

theorem HasExpr.lt_size {e : Expr} (he : t.HasExpr e) : ∀ id ∈ e.ids, id.index < t.size := by
  induction e with
  | literal l =>
    cases he with
    | literal hl => simpa [Expr.ids] using hl.lt_size
  | plain id access name =>
    cases he with
    | plain hn => simpa [Expr.ids] using hn.lt_size
  | element id access name index ih =>
    cases he with
    | element hn hi => exact List.forall_mem_cons.2 ⟨hn.lt_size, ih hi⟩
  | unary id op arity operand ih =>
    cases he with
    | unary hn ho => exact List.forall_mem_cons.2 ⟨hn.lt_size, ih ho⟩
  | binary id op arity left right ihl ihr =>
    cases he with
    | binary hn hl hr =>
      exact List.forall_mem_cons.2 ⟨hn.lt_size, List.forall_mem_append.2 ⟨ihl hl, ihr hr⟩⟩
  | call id name arguments ih =>
    cases he with
    | call hn hw ha =>
      rw [Expr.ids, Expr.argumentIds_eq]
      refine List.forall_mem_cons.2 ⟨hn.lt_size, fun id hid => ?_⟩
      obtain ⟨a, hmem, hid⟩ := List.mem_flatMap.1 hid
      rcases List.mem_cons.1 hid with rfl | hid
      · exact (hw a hmem).lt_size
      · exact ih a hmem (ha a hmem) id hid

theorem HasVarDecl.lt_size {d : VarDecl} (hd : t.HasVarDecl d) :
    ∀ id ∈ d.ids, id.index < t.size := by
  refine List.forall_mem_cons.2 ⟨hd.1.lt_size, ?_⟩
  have shape := hd.2
  cases hshape : d.shape with
  | scalar => simp [Shape.first, Shape.second]
  | array id length =>
    rw [hshape] at shape
    simpa [Shape.first, Shape.second] using Has.lt_size shape
  | initialized value =>
    rw [hshape] at shape
    simpa [Shape.first, Shape.second] using HasLiteral.lt_size shape

theorem HasStmt.lt_size {st : Stmt} (hs : t.HasStmt st) : ∀ id ∈ st.ids, id.index < t.size := by
  induction st with
  | assignment id target value =>
    cases hs with
    | assignment hn ht hv =>
      exact List.forall_mem_cons.2 ⟨hn.lt_size, List.forall_mem_append.2 ⟨ht.lt_size, hv.lt_size⟩⟩
  | call c =>
    cases hs with
    | call hc => exact hc.lt_size
  | ifThen id branch condition yes ih =>
    cases hs with
    | ifThen hn hbranch hc hy =>
      exact List.forall_mem_cons.2 ⟨hn.lt_size, List.forall_mem_cons.2
        ⟨hbranch.lt_size, List.forall_mem_append.2 ⟨hc.lt_size, ih hy⟩⟩⟩
  | ifElse id branch condition yes other no ihy ihn =>
    cases hs with
    | ifElse hn hbranch ho hc hy hno =>
      refine List.forall_mem_cons.2 ⟨hn.lt_size, List.forall_mem_cons.2
        ⟨hbranch.lt_size, List.forall_mem_cons.2 ⟨ho.lt_size, ?_⟩⟩⟩
      exact List.forall_mem_append.2 ⟨List.forall_mem_append.2 ⟨hc.lt_size, ihy hy⟩, ihn hno⟩
  | loop id condition body ih =>
    cases hs with
    | loop hn hc hbody =>
      exact List.forall_mem_cons.2 ⟨hn.lt_size, List.forall_mem_append.2 ⟨hc.lt_size, ih hbody⟩⟩
  | returnValue id value =>
    cases hs with
    | returnValue hn hv =>
      refine List.forall_mem_cons.2 ⟨hn.lt_size, fun id hid => ?_⟩
      obtain ⟨e, he, hid⟩ := List.mem_flatMap.1 hid
      exact (hv e (Option.mem_toList.1 he)).lt_size id hid
  | jump id j =>
    cases hs with
    | jump hn => simpa [Stmt.ids] using hn.lt_size
  | block id locals body ih =>
    cases hs with
    | block hn hl hbody =>
      rw [Stmt.ids, Stmt.bodyIds_eq]
      refine List.forall_mem_cons.2 ⟨hn.lt_size, List.forall_mem_append.2
        ⟨List.forall_mem_flatMap.2 fun d hd => (hl d hd).lt_size,
          List.forall_mem_flatMap.2 fun st hst => ih st hst (hbody st hst)⟩⟩

/-- All nodes of a program that a tree holds are nodes of the tree. -/
theorem HasProgram.lt_size {p : Program} (hp : t.HasProgram p) :
    ∀ id ∈ p.ids, id.index < t.size := by
  have externs : ∀ e ∈ p.externs, ∀ id ∈ e.ids, id.index < t.size := by
    intro e he
    refine List.forall_mem_cons.2 ⟨(hp.externs e he).node.lt_size, ?_⟩
    exact List.forall_mem_map.2 fun param hparam => ((hp.externs e he).params param hparam).lt_size
  have methods : ∀ m ∈ p.methods, ∀ id ∈ m.ids, id.index < t.size := by
    intro m hm
    refine List.forall_mem_cons.2 ⟨(hp.methods m hm).node.lt_size, List.forall_mem_append.2
      ⟨List.forall_mem_map.2 fun param hparam => ?_, (hp.methods m hm).block.lt_size⟩⟩
    exact Has.lt_size ((hp.methods m hm).params param hparam)
  refine List.forall_mem_cons.2 ⟨hp.root.lt_size, List.forall_mem_append.2
    ⟨List.forall_mem_flatMap.2 externs, List.forall_mem_cons.2
      ⟨hp.package.lt_size, List.forall_mem_append.2 ⟨?_, List.forall_mem_flatMap.2 methods⟩⟩⟩⟩
  exact List.forall_mem_flatMap.2 fun d hd => (hp.fields d hd).lt_size

end Nodes

/-! ### Trees of the same text -/

section Bare

variable {t u : Tree} (h : u.bare = t.bare)

include h

theorem Has.of_bare_eq {id : NodeId} {p q : Node → Prop} (hp : t.Has id p)
    (hpq : ∀ n m : Node, m.bare = n.bare → p n → q m) : u.Has id q := by
  obtain ⟨n, hn, hpn⟩ := hp
  obtain ⟨m, hm, hbare⟩ := node_of_bare_eq h hn
  exact ⟨m, hm, hpq n m hbare hpn⟩

theorem HasLiteral.of_bare_eq {l : Literal} (hl : t.HasLiteral l) : u.HasLiteral l := by
  cases l with
  | int | bool =>
    refine Has.of_bare_eq h hl fun n m hb hn => ?_
    rwa [Node.kind_of_bare_eq hb, Node.value_of_bare_eq hb]
  | string =>
    refine Has.of_bare_eq h hl fun n m hb hn => ?_
    rwa [Node.kind_of_bare_eq hb, Node.text_of_bare_eq hb]

theorem HasArgument.of_bare_eq {wrapper expression : NodeId}
    (ha : t.HasArgument wrapper expression) : u.HasArgument wrapper expression := by
  refine Has.of_bare_eq h ha fun n m hb hn => ?_
  rwa [Node.kind_of_bare_eq hb, Node.first_of_bare_eq hb]

theorem HasExpr.of_bare_eq {e : Expr} (he : t.HasExpr e) : u.HasExpr e := by
  induction e with
  | literal l =>
    cases he with
    | literal hl => exact .literal (hl.of_bare_eq h)
  | plain id access name =>
    cases he with
    | plain hn =>
      refine .plain (hn.of_bare_eq h fun n m hb hp => ?_)
      rwa [Node.kind_of_bare_eq hb, Node.text_of_bare_eq hb, Node.first_of_bare_eq hb]
  | element id access name index ih =>
    cases he with
    | element hn hi =>
      refine .element (hn.of_bare_eq h fun n m hb hp => ?_) (ih hi)
      rwa [Node.kind_of_bare_eq hb, Node.text_of_bare_eq hb, Node.first_of_bare_eq hb]
  | unary id op arity operand ih =>
    cases he with
    | unary hn ho =>
      refine .unary (hn.of_bare_eq h fun n m hb hp => ?_) (ih ho)
      rwa [Node.kind_of_bare_eq hb, Node.operator_of_bare_eq hb, Node.first_of_bare_eq hb,
        Node.second_of_bare_eq hb]
  | binary id op arity left right ihl ihr =>
    cases he with
    | binary hn hl hr =>
      refine .binary (hn.of_bare_eq h fun n m hb hp => ?_) (ihl hl) (ihr hr)
      rwa [Node.kind_of_bare_eq hb, Node.operator_of_bare_eq hb, Node.first_of_bare_eq hb,
        Node.second_of_bare_eq hb]
  | call id name arguments ih =>
    cases he with
    | call hn hw ha =>
      refine .call (hn.of_bare_eq h fun n m hb hp => ?_) (fun a hm => (hw a hm).of_bare_eq h)
        fun a hm => ih a hm (ha a hm)
      rw [Node.kind_of_bare_eq hb, Node.text_of_bare_eq hb, Node.first_of_bare_eq hb]
      exact ⟨hp.1, hp.2.1, hp.2.2.of_bare_eq h⟩

theorem HasShape.of_bare_eq {shape : Shape} (hs : t.HasShape shape) : u.HasShape shape := by
  cases shape with
  | scalar => trivial
  | array id length =>
    refine Has.of_bare_eq h hs fun n m hb hn => ?_
    rwa [Node.kind_of_bare_eq hb, Node.value_of_bare_eq hb]
  | initialized value => exact HasLiteral.of_bare_eq h hs

theorem HasVarDecl.of_bare_eq {d : VarDecl} (hd : t.HasVarDecl d) : u.HasVarDecl d := by
  refine ⟨hd.1.of_bare_eq h fun n m hb hn => ?_, HasShape.of_bare_eq h hd.2⟩
  rwa [Node.kind_of_bare_eq hb, Node.text_of_bare_eq hb,
    Node.ty_of_bare_eq hb (by rw [hn.1]; rfl), Node.first_of_bare_eq hb,
    Node.second_of_bare_eq hb]

theorem HasStmt.of_bare_eq {st : Stmt} (hs : t.HasStmt st) : u.HasStmt st := by
  induction st with
  | assignment id target value =>
    cases hs with
    | assignment hn ht hv =>
      refine .assignment (hn.of_bare_eq h fun n m hb hp => ?_) (ht.of_bare_eq h) (hv.of_bare_eq h)
      rwa [Node.kind_of_bare_eq hb, Node.first_of_bare_eq hb, Node.second_of_bare_eq hb]
  | call c =>
    cases hs with
    | call hc => exact .call (hc.of_bare_eq h)
  | ifThen id branch condition yes ih =>
    cases hs with
    | ifThen hn hbr hc hy =>
      refine .ifThen (hn.of_bare_eq h fun n m hb hp => ?_) (hbr.of_bare_eq h fun n m hb hp => ?_)
        (hc.of_bare_eq h) (ih hy)
      all_goals rwa [Node.kind_of_bare_eq hb, Node.first_of_bare_eq hb, Node.second_of_bare_eq hb]
  | ifElse id branch condition yes other no ihy ihn =>
    cases hs with
    | ifElse hn hbr ho hc hy hno =>
      refine .ifElse (hn.of_bare_eq h fun n m hb hp => ?_) (hbr.of_bare_eq h fun n m hb hp => ?_)
        (ho.of_bare_eq h fun n m hb hp => ?_) (hc.of_bare_eq h) (ihy hy) (ihn hno)
      · rwa [Node.kind_of_bare_eq hb, Node.first_of_bare_eq hb, Node.second_of_bare_eq hb]
      · rwa [Node.kind_of_bare_eq hb, Node.first_of_bare_eq hb, Node.second_of_bare_eq hb]
      · rwa [Node.kind_of_bare_eq hb, Node.first_of_bare_eq hb]
  | loop id condition body ih =>
    cases hs with
    | loop hn hc hbody =>
      refine .loop (hn.of_bare_eq h fun n m hb hp => ?_) (hc.of_bare_eq h) (ih hbody)
      rwa [Node.kind_of_bare_eq hb, Node.first_of_bare_eq hb, Node.second_of_bare_eq hb]
  | returnValue id value =>
    cases hs with
    | returnValue hn hv =>
      refine .returnValue (hn.of_bare_eq h fun n m hb hp => ?_) fun e he => (hv e he).of_bare_eq h
      rwa [Node.kind_of_bare_eq hb, Node.first_of_bare_eq hb]
  | jump id j =>
    cases hs with
    | jump hn =>
      refine .jump (hn.of_bare_eq h fun n m hb hp => ?_)
      rwa [Node.kind_of_bare_eq hb]
  | block id locals body ih =>
    cases hs with
    | block hn hl hbody =>
      refine .block (hn.of_bare_eq h fun n m hb hp => ?_) (fun d hd => (hl d hd).of_bare_eq h)
        fun st hst => ih st hst (hbody st hst)
      rw [Node.kind_of_bare_eq hb, Node.first_of_bare_eq hb, Node.second_of_bare_eq hb]
      exact ⟨hp.1, hp.2.1.of_bare_eq h, hp.2.2.of_bare_eq h⟩

theorem HasParam.of_bare_eq {param : Param} (hp : t.HasParam param) : u.HasParam param := by
  refine Has.of_bare_eq h hp fun n m hb hn => ?_
  rwa [Node.kind_of_bare_eq hb, Node.text_of_bare_eq hb,
    Node.ty_of_bare_eq hb (by rw [hn.1]; rfl)]

theorem HasMethod.of_bare_eq {m : Method} (hm : t.HasMethod m) : u.HasMethod m where
  node := by
    refine hm.node.of_bare_eq h fun n m hb hn => ?_
    rw [Node.kind_of_bare_eq hb, Node.text_of_bare_eq hb,
      Node.ty_of_bare_eq hb (by rw [hn.1]; rfl), Node.first_of_bare_eq hb,
      Node.second_of_bare_eq hb]
    exact ⟨hn.1, hn.2.1, hn.2.2.1, hn.2.2.2.1.of_bare_eq h, hn.2.2.2.2⟩
  params := fun param hp => (hm.params param hp).of_bare_eq h
  block := hm.block.of_bare_eq h

theorem HasExtern.of_bare_eq {e : Extern} (he : t.HasExtern e) : u.HasExtern e where
  node := by
    refine he.node.of_bare_eq h fun n m hb hn => ?_
    rw [Node.kind_of_bare_eq hb, Node.text_of_bare_eq hb,
      Node.ty_of_bare_eq hb (by rw [hn.1]; rfl), Node.first_of_bare_eq hb]
    exact ⟨hn.1, hn.2.1, hn.2.2.1, hn.2.2.2.of_bare_eq h⟩
  params := fun param hp => by
    refine (he.params param hp).of_bare_eq h fun n m hb hn => ?_
    rwa [Node.kind_of_bare_eq hb, Node.ty_of_bare_eq hb (by rw [hn.1]; rfl)]

theorem HasProgram.of_bare_eq {p : Program} (hp : t.HasProgram p) : u.HasProgram p where
  root := by
    refine hp.root.of_bare_eq h fun n m hb hn => ?_
    rw [Node.kind_of_bare_eq hb, Node.next_of_bare_eq hb, Node.first_of_bare_eq hb,
      Node.second_of_bare_eq hb]
    exact ⟨hn.1, hn.2.1, hn.2.2.1.of_bare_eq h, hn.2.2.2⟩
  package := by
    refine hp.package.of_bare_eq h fun n m hb hn => ?_
    rw [Node.kind_of_bare_eq hb, Node.text_of_bare_eq hb, Node.next_of_bare_eq hb,
      Node.first_of_bare_eq hb, Node.second_of_bare_eq hb]
    exact ⟨hn.1, hn.2.1, hn.2.2.1, hn.2.2.2.1.of_bare_eq h, hn.2.2.2.2.of_bare_eq h⟩
  externs := fun e he => (hp.externs e he).of_bare_eq h
  fields := fun d hd => (hp.fields d hd).of_bare_eq h
  methods := fun m hm => (hp.methods m hm).of_bare_eq h

end Bare

end DecafStatics.Tree
