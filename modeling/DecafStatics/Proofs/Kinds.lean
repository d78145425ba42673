import DecafStatics.Proofs.Held

/-!
# The kinds of the nodes of a program

A program does not name the kinds of its nodes, but it determines them: a tree that holds it has a
node of that kind in each place. The nodes of a program that are of some kind in the tree can
therefore be found by the grammar alone, which is how a statement about all nodes of a kind becomes
one about the constructs that have them.

## Main definitions

* `Expr.kinds`, `Stmt.kinds`, `Program.kinds` — the nodes of a construct with their kinds
* `nodesOf`, `Tree.ofKind` — the nodes of some kinds, in a program and in a tree

## Main results

* `Tree.HasProgram.kinds` — a tree that holds a program has nodes of these kinds
* `Tree.HasProgram.filter_ids` — the nodes of a program that are of some kinds in the tree
-/

namespace DecafStatics

def Literal.kind : Literal → NodeKind
  | int .. => .intConstant
  | bool .. => .boolConstant
  | string .. => .stringConstant

namespace Expr

mutual

/-- The nodes of an expression with their kinds. -/
def kinds : Expr → List (NodeId × NodeKind)
  | literal l => [(l.id, l.kind)]
  | plain id access _ => [(id, access.kind)]
  | element id access _ index => (id, access.kind) :: index.kinds
  | unary id _ _ operand => (id, .operation) :: operand.kinds
  | binary id _ _ left right => (id, .operation) :: (left.kinds ++ right.kinds)
  | call id _ arguments => (id, .call) :: argumentKinds arguments

/-- The nodes of the arguments of a call with their kinds. -/
def argumentKinds : List (NodeId × Expr) → List (NodeId × NodeKind)
  | [] => []
  | (wrapper, e) :: rest => (wrapper, .argument) :: (e.kinds ++ argumentKinds rest)

end

theorem argumentKinds_eq (arguments : List (NodeId × Expr)) :
    argumentKinds arguments = arguments.flatMap fun a => (a.1, .argument) :: a.2.kinds := by
  induction arguments with
  | nil => rfl
  | cons a rest ih => rw [argumentKinds, ih, List.flatMap_cons, List.cons_append]

/-- Nothing but expressions stands in an expression. -/
theorem isExpression_of_mem_kinds (e : Expr) : ∀ x ∈ e.kinds, x.2.isExpression = true := by
  induction e with
  | literal l => cases l <;> exact List.forall_mem_singleton.2 rfl
  | plain id access name => cases access <;> exact List.forall_mem_singleton.2 rfl
  | element id access name index ih => cases access <;> exact List.forall_mem_cons.2 ⟨rfl, ih⟩
  | unary id op arity operand ih => exact List.forall_mem_cons.2 ⟨rfl, ih⟩
  | binary id op arity left right ihl ihr =>
    exact List.forall_mem_cons.2 ⟨rfl, List.forall_mem_append.2 ⟨ihl, ihr⟩⟩
  | call id name arguments ih =>
    rw [kinds, argumentKinds_eq]
    exact List.forall_mem_cons.2 ⟨rfl, List.forall_mem_flatMap.2 fun a ha =>
      List.forall_mem_cons.2 ⟨rfl, ih a ha⟩⟩

end Expr

/-- The nodes that the shape of a variable has, with their kinds. -/
def Shape.kinds : Shape → List (NodeId × NodeKind)
  | scalar => []
  | array id _ => [(id, .intConstant)]
  | initialized value => [(value.id, value.kind)]

def VarDecl.kinds (d : VarDecl) : List (NodeId × NodeKind) := (d.id, .variableDecl) :: d.shape.kinds

namespace Stmt

mutual

/-- The nodes of a statement with their kinds. -/
def kinds : Stmt → List (NodeId × NodeKind)
  | assignment id target value => (id, .assignment) :: (target.expr.kinds ++ value.kinds)
  | call c => c.expr.kinds
  | ifThen id branch condition yes =>
    (id, .conditional) :: (branch, .thenBranch) :: (condition.kinds ++ yes.kinds)
  | ifElse id branch condition yes other no =>
    (id, .conditional) :: (branch, .thenBranch) :: (other, .elseBranch) ::
      (condition.kinds ++ yes.kinds ++ no.kinds)
  | loop id condition body => (id, .loop) :: (condition.kinds ++ body.kinds)
  | returnValue id value => (id, .returnValue) :: (value.toList.flatMap Expr.kinds)
  | jump id j => [(id, j.kind)]
  | block id locals body => (id, .block) :: (locals.flatMap VarDecl.kinds ++ bodyKinds body)

/-- The nodes of the statements of a block with their kinds. -/
def bodyKinds : List Stmt → List (NodeId × NodeKind)
  | [] => []
  | st :: rest => st.kinds ++ bodyKinds rest

end

theorem bodyKinds_eq (body : List Stmt) : bodyKinds body = body.flatMap kinds := by
  induction body with
  | nil => rfl
  | cons st rest ih => rw [bodyKinds, ih, List.flatMap_cons]

end Stmt

def Method.kinds (m : Method) : List (NodeId × NodeKind) :=
  (m.id, .methodDecl) :: (m.params.map (fun param => (param.id, .parameter)) ++ m.block.kinds)

def Extern.kinds (e : Extern) : List (NodeId × NodeKind) :=
  (e.id, .externDecl) :: e.params.map fun param => (param.1, .externType)

/-- All nodes of a program with their kinds. -/
def Program.kinds (p : Program) : List (NodeId × NodeKind) :=
  (p.id, .program) :: (p.externs.flatMap Extern.kinds ++
    (p.package, .package) :: (p.fields.flatMap VarDecl.kinds ++ p.methods.flatMap Method.kinds))

/-! ### The same nodes -/

theorem map_fst_flatMap {α β γ : Type} {l : List α} {f : α → List (β × γ)} {g : α → List β}
    (h : ∀ a ∈ l, (f a).map Prod.fst = g a) : (l.flatMap f).map Prod.fst = l.flatMap g := by
  rw [List.map_flatMap, List.flatMap_def, List.flatMap_def, List.map_congr_left h]

theorem Expr.map_fst_kinds (e : Expr) : e.kinds.map Prod.fst = e.ids := by
  induction e with
  | literal | plain => rfl
  | element id access name index ih => simp [kinds, ids, ih]
  | unary id op arity operand ih => simp [kinds, ids, ih]
  | binary id op arity left right ihl ihr => simp [kinds, ids, ihl, ihr]
  | call id name arguments ih =>
    rw [kinds, ids, argumentKinds_eq, argumentIds_eq, List.map_cons,
      map_fst_flatMap (g := fun a => a.1 :: a.2.ids) fun a ha => by simp [ih a ha]]

theorem VarDecl.map_fst_kinds (d : VarDecl) : d.kinds.map Prod.fst = d.ids := by
  rw [kinds, ids]
  cases d.shape <;> rfl

theorem Stmt.map_fst_kinds (st : Stmt) : st.kinds.map Prod.fst = st.ids := by
  induction st with
  | assignment id target value => simp [kinds, ids, Expr.map_fst_kinds]
  | call c => exact c.expr.map_fst_kinds
  | ifThen id branch condition yes ih => simp [kinds, ids, Expr.map_fst_kinds, ih]
  | ifElse id branch condition yes other no ihy ihn =>
    simp [kinds, ids, Expr.map_fst_kinds, ihy, ihn]
  | loop id condition body ih => simp [kinds, ids, Expr.map_fst_kinds, ih]
  | returnValue id value =>
    rw [kinds, ids, List.map_cons, map_fst_flatMap fun e _ => e.map_fst_kinds]
  | jump => rfl
  | block id locals body ih =>
    rw [kinds, ids, bodyKinds_eq, bodyIds_eq, List.map_cons, List.map_append,
      map_fst_flatMap fun d _ => d.map_fst_kinds, map_fst_flatMap ih]

theorem Method.map_fst_kinds (m : Method) : m.kinds.map Prod.fst = m.ids := by
  simp [kinds, ids, Stmt.map_fst_kinds, Function.comp_def]

theorem Extern.map_fst_kinds (e : Extern) : e.kinds.map Prod.fst = e.ids := by
  simp [kinds, ids, Function.comp_def]

theorem Program.map_fst_kinds (p : Program) : p.kinds.map Prod.fst = p.ids := by
  simp only [kinds, ids, List.map_cons, List.map_append,
    map_fst_flatMap fun e (_ : e ∈ p.externs) => e.map_fst_kinds,
    map_fst_flatMap fun d (_ : d ∈ p.fields) => d.map_fst_kinds,
    map_fst_flatMap fun m (_ : m ∈ p.methods) => m.map_fst_kinds]

/-! ### In a tree -/

/-! ### The nodes of some kinds -/

/-- The nodes of the kinds that `choose` picks. -/
def nodesOf (choose : NodeKind → Bool) (kinds : List (NodeId × NodeKind)) : List NodeId :=
  (kinds.filter fun x => choose x.2).map Prod.fst

section NodesOf

variable {choose : NodeKind → Bool} {kinds kinds' : List (NodeId × NodeKind)} {id : NodeId}
  {kind : NodeKind}

@[simp] theorem nodesOf_append :
    nodesOf choose (kinds ++ kinds') = nodesOf choose kinds ++ nodesOf choose kinds' := by
  simp [nodesOf]

theorem nodesOf_flatMap {α : Type} {l : List α} {f : α → List (NodeId × NodeKind)}
    {g : α → List NodeId} (h : ∀ a ∈ l, nodesOf choose (f a) = g a) :
    nodesOf choose (l.flatMap f) = l.flatMap g := by
  rw [nodesOf, List.filter_flatMap, List.map_flatMap, List.flatMap_def, List.flatMap_def]
  exact congrArg _ (List.map_congr_left h)

theorem nodesOf_cons (h : choose kind = true) :
    nodesOf choose ((id, kind) :: kinds) = id :: nodesOf choose kinds := by
  simp [nodesOf, h]

theorem nodesOf_cons_of_not (h : choose kind = false) :
    nodesOf choose ((id, kind) :: kinds) = nodesOf choose kinds := by
  simp [nodesOf, h]

theorem nodesOf_eq_nil (h : ∀ x ∈ kinds, choose x.2 = false) : nodesOf choose kinds = [] := by
  rw [nodesOf, List.filter_eq_nil_iff.2 fun x hx => by simp [h x hx]]
  rfl

theorem nodesOf_sublist : (nodesOf choose kinds).Sublist (kinds.map Prod.fst) :=
  List.filter_sublist.map Prod.fst

end NodesOf

namespace Tree

variable {t : Tree}

/-- The node is there, and of a kind that `choose` picks. -/
def ofKind (t : Tree) (choose : NodeKind → Bool) (id : NodeId) : Bool :=
  t.nodes[id.index]?.any fun n => choose n.kind

theorem Has.ofKind {id : NodeId} {kind : NodeKind} (h : t.Has id fun n => n.kind = kind)
    (choose : NodeKind → Bool) : t.ofKind choose id = choose kind := by
  obtain ⟨n, hn, rfl⟩ := h
  simp [Tree.ofKind, node_eq_ok_iff.1 hn]

/-- Each node is of the kind that it should be of. -/
def HasKinds (t : Tree) (kinds : List (NodeId × NodeKind)) : Prop :=
  ∀ x ∈ kinds, t.Has x.1 fun n => n.kind = x.2

theorem HasKinds.append {ks ls : List (NodeId × NodeKind)} (h : t.HasKinds ks)
    (h' : t.HasKinds ls) : t.HasKinds (ks ++ ls) :=
  List.forall_mem_append.2 ⟨h, h'⟩

theorem HasKinds.cons {id : NodeId} {kind : NodeKind} {ks : List (NodeId × NodeKind)}
    {p : Node → Prop} (hn : t.Has id fun n => n.kind = kind ∧ p n) (h : t.HasKinds ks) :
    t.HasKinds ((id, kind) :: ks) :=
  List.forall_mem_cons.2 ⟨hn.imp fun _ hn => hn.1, h⟩

theorem HasKinds.flatMap {α : Type} {l : List α} {f : α → List (NodeId × NodeKind)}
    (h : ∀ a ∈ l, t.HasKinds (f a)) : t.HasKinds (l.flatMap f) :=
  List.forall_mem_flatMap.2 h

theorem HasLiteral.kind {l : Literal} (h : t.HasLiteral l) :
    t.Has l.id fun n => n.kind = l.kind := by
  cases l <;> exact h.imp fun n hn => hn.1

theorem HasExpr.kinds {e : Expr} (h : t.HasExpr e) : t.HasKinds e.kinds := by
  induction e with
  | literal l =>
    cases h with
    | literal hl => exact List.forall_mem_singleton.2 hl.kind
  | plain id access name =>
    cases h with
    | plain hn => exact .cons hn (List.forall_mem_nil _)
  | element id access name index ih =>
    cases h with
    | element hn hi => exact .cons hn (ih hi)
  | unary id op arity operand ih =>
    cases h with
    | unary hn ho => exact .cons hn (ih ho)
  | binary id op arity left right ihl ihr =>
    cases h with
    | binary hn hl hr => exact .cons hn ((ihl hl).append (ihr hr))
  | call id name arguments ih =>
    cases h with
    | call hn hw ha =>
      rw [Expr.kinds, Expr.argumentKinds_eq]
      exact .cons hn (.flatMap fun a hm => .cons (hw a hm) (ih a hm (ha a hm)))

theorem HasVarDecl.kinds {d : VarDecl} (h : t.HasVarDecl d) : t.HasKinds d.kinds := by
  obtain ⟨hn, shape⟩ := h
  refine .cons hn ?_
  cases hshape : d.shape with
  | scalar => exact List.forall_mem_nil _
  | array id length =>
    rw [hshape] at shape
    exact .cons shape (List.forall_mem_nil _)
  | initialized value =>
    rw [hshape] at shape
    exact List.forall_mem_singleton.2 (HasLiteral.kind shape)

theorem HasStmt.kinds {st : Stmt} (h : t.HasStmt st) : t.HasKinds st.kinds := by
  induction st with
  | assignment id target value =>
    cases h with
    | assignment hn ht hv => exact .cons hn (ht.kinds.append hv.kinds)
  | call c =>
    cases h with
    | call hc => exact hc.kinds
  | ifThen id branch condition yes ih =>
    cases h with
    | ifThen hn hb hc hy => exact .cons hn (.cons hb (hc.kinds.append (ih hy)))
  | ifElse id branch condition yes other no ihy ihn =>
    cases h with
    | ifElse hn hb ho hc hy hno =>
      exact .cons hn (.cons hb (.cons ho ((hc.kinds.append (ihy hy)).append (ihn hno))))
  | loop id condition body ih =>
    cases h with
    | loop hn hc hb => exact .cons hn (hc.kinds.append (ih hb))
  | returnValue id value =>
    cases h with
    | returnValue hn hv =>
      exact .cons hn (.flatMap fun e he => (hv e (Option.mem_toList.1 he)).kinds)
  | jump id j =>
    cases h with
    | jump hn => exact List.forall_mem_singleton.2 hn
  | block id locals body ih =>
    cases h with
    | block hn hl hb =>
      rw [Stmt.kinds, Stmt.bodyKinds_eq]
      exact .cons hn ((HasKinds.flatMap fun d hd => (hl d hd).kinds).append
        (.flatMap fun st hst => ih st hst (hb st hst)))

theorem HasMethod.kinds {m : Method} (h : t.HasMethod m) : t.HasKinds m.kinds := by
  have params : t.HasKinds (m.params.map fun param => (param.id, .parameter)) :=
    List.forall_mem_map.2 fun param hparam => (h.params param hparam).imp fun _ hn => hn.1
  exact .cons h.node (params.append h.block.kinds)

theorem HasExtern.kinds {e : Extern} (h : t.HasExtern e) : t.HasKinds e.kinds :=
  .cons h.node (List.forall_mem_map.2 fun param hparam =>
    (h.params param hparam).imp fun _ hn => hn.1)

/-- A tree that holds a program has nodes of its kinds. -/
theorem HasProgram.kinds {p : Program} (h : t.HasProgram p) : t.HasKinds p.kinds :=
  .cons h.root ((HasKinds.flatMap fun e he => (h.externs e he).kinds).append
    (.cons h.package ((HasKinds.flatMap fun d hd => (h.fields d hd).kinds).append
      (.flatMap fun m hm => (h.methods m hm).kinds))))

/-- **The nodes of a program that are of some kinds in the tree** can be read off the program. -/
theorem HasProgram.filter_ids {p : Program} (h : t.HasProgram p) (choose : NodeKind → Bool) :
    p.ids.filter (t.ofKind choose) = nodesOf choose p.kinds := by
  rw [← p.map_fst_kinds, List.filter_map, nodesOf]
  exact congrArg _ (List.filter_congr fun x hx => (h.kinds x hx).ofKind choose)

end Tree

end DecafStatics
