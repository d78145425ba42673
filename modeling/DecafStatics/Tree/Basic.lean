import DecafStatics.Fault
import DecafStatics.Handle
import DecafStatics.Operator
import DecafStatics.Position

/-!
# Syntax trees

A program is held as an array of nodes that refer to each other by index. A node has at most two
children, `first` and `second`, and at most one younger sibling, `next`; a list of children is
the chain of siblings that starts at a child. What a child means depends on the kind of its
parent, and the constructors of `NodeKind` say so.

Nothing is assumed about the shape of a tree: any kind may stand in any place, children may be
missing, shared, or point outside of the array. Reading through a handle that names no node is
the fault `Fault.outOfBounds`; storing such a handle is not. A tree with more nodes than there are
handles is no fault either, but some of its nodes have no handle that names them.

## Main definitions

* `Node`, `Tree` — a node and an array of nodes
* `Tree.node`, `Tree.update`, `Tree.alloc` — reading, overwriting and appending a node

## Main results

* `Tree.node_eq_ok_iff` — a node can be read exactly if its index is below the size
* `Tree.node_update` — overwriting one node leaves every other as it was
* `Tree.node_alloc` — appending keeps every node
-/

namespace DecafStatics

/-- The syntactic constructs. -/
inductive NodeKind where
  /-- The root: `first` are the extern declarations, `second` is the package. -/
  | program
  /-- A package: `first` are its fields, `second` are its methods. -/
  | package
  /-- An extern method: `first` are the types of its parameters. -/
  | externDecl
  /-- The type of one parameter of an extern method. -/
  | externType
  /-- A method: `first` are its parameters, `second` is its body. -/
  | methodDecl
  /-- One parameter of a method. -/
  | parameter
  /-- A variable: `first` is the length of an array, `second` an initial value. -/
  | variableDecl
  /-- A block: `first` are its variables, `second` its statements. -/
  | block
  /-- An assignment of `second` to `first`. -/
  | assignment
  /-- A call: `first` are the arguments. -/
  | call
  /-- One argument of a call, which wraps the expression `first`. -/
  | argument
  /-- A conditional: `first` is its `thenBranch`, `second` the `elseBranch` if there is one. -/
  | conditional
  /-- The condition `first` and the statement `second` that it guards. -/
  | thenBranch
  /-- The statement `first` that stands behind `else`. -/
  | elseBranch
  /-- A loop: `first` is the condition, `second` the body. -/
  | loop
  /-- A return of `first`, if it returns a value. -/
  | returnValue
  | breakLoop
  | continueLoop
  /-- An operation on `first` and, unless the operator is unary, `second`. -/
  | operation
  /-- A variable that is written, or its element at index `first`. -/
  | target
  /-- A variable that is read, or its element at index `first`. -/
  | reference
  | intConstant
  /-- A truth value, true where the value of the node is one. -/
  | boolConstant
  /-- A text, which stands with its quotes in the name of the node. -/
  | stringConstant
  deriving DecidableEq

/-- One node of a tree. -/
structure Node where
  kind : NodeKind
  operator : Option Operator
  name : Option String
  value : Int32
  /-- The type that a declaration gives, or that checking found for an expression. -/
  ty : Option Ty
  /-- The symbol that the node declares or refers to, once checking has found it. -/
  symbol : Option SymbolId
  /-- Words of storage, once checking has laid them out. -/
  size : Nat
  first : Option NodeId
  second : Option NodeId
  next : Option NodeId
  position : Position
  deriving DecidableEq

namespace Node

/-- A node of the given kind with nothing else set. -/
def blank (kind : NodeKind) : Node where
  kind := kind
  operator := none
  name := none
  value := 0
  ty := none
  symbol := none
  size := 0
  first := none
  second := none
  next := none
  position := .null

/-- The name of the node as text, which is empty where there is none. -/
def text (n : Node) : String := n.name.getD ""

end Node

/-- An array of nodes, in the order in which they were made. -/
structure Tree where
  nodes : Array Node
  deriving DecidableEq

namespace Tree

/-- The tree without nodes. -/
def empty : Tree := ⟨#[]⟩

instance : Inhabited Tree := ⟨empty⟩

/-- The number of nodes. -/
def size (t : Tree) : Nat := t.nodes.size

/-- The node that `id` names. -/
def node (t : Tree) (id : NodeId) : Except Fault Node :=
  match t.nodes[id.index]? with
  | some n => .ok n
  | none => .error (.outOfBounds t.size id.index)

/-- The tree with `f` applied to the node that `id` names. -/
def update (t : Tree) (id : NodeId) (f : Node → Node) : Except Fault Tree :=
  if id.index < t.size then .ok ⟨t.nodes.modify id.index f⟩
  else .error (.outOfBounds t.size id.index)

/-- The tree with `n` appended, and the handle that the new node is given. It names the new node
as long as there are handles left. -/
def alloc (t : Tree) (n : Node) : NodeId × Tree := (⟨t.size % maxHandles⟩, ⟨t.nodes.push n⟩)

/-! ### Reading after writing -/

theorem node_eq_ok_iff {t : Tree} {id : NodeId} {n : Node} :
    t.node id = .ok n ↔ t.nodes[id.index]? = some n := by
  unfold node
  split <;> simp_all

theorem node_ok_of_lt {t : Tree} {id : NodeId} (h : id.index < t.size) :
    ∃ n, t.node id = .ok n :=
  ⟨t.nodes[id.index], node_eq_ok_iff.2 (Array.getElem?_eq_getElem h)⟩

theorem lt_of_node_eq_ok {t : Tree} {id : NodeId} {n : Node} (h : t.node id = .ok n) :
    id.index < t.size :=
  (Array.getElem?_eq_some_iff.1 (node_eq_ok_iff.1 h)).1

theorem node_eq_error_iff {t : Tree} {id : NodeId} {e : Fault} :
    t.node id = .error e ↔ t.size ≤ id.index ∧ e = .outOfBounds t.size id.index := by
  unfold node size
  split <;> rename_i h
  · have := (Array.getElem?_eq_some_iff.1 h).1
    simp; omega
  · have := Array.getElem?_eq_none_iff.1 h
    simp [this, eq_comm]

@[simp] theorem size_alloc (t : Tree) (n : Node) : (t.alloc n).2.size = t.size + 1 := by
  simp [alloc, size]

theorem alloc_fst {t : Tree} (h : t.size < maxHandles) (n : Node) : (t.alloc n).1 = ⟨t.size⟩ :=
  congrArg NodeId.mk (Nat.mod_eq_of_lt h)

@[simp] theorem node_alloc_self (t : Tree) (n : Node) : (t.alloc n).2.node ⟨t.size⟩ = .ok n := by
  simp [node_eq_ok_iff, alloc, size]

/-- Appending keeps every node. -/
theorem node_alloc {t : Tree} {id : NodeId} {m : Node} (n : Node) (h : t.node id = .ok m) :
    (t.alloc n).2.node id = .ok m := by
  have hlt := lt_of_node_eq_ok h
  rw [node_eq_ok_iff] at h ⊢
  have hne : id.index ≠ t.nodes.size := Nat.ne_of_lt hlt
  simpa [alloc, Array.getElem?_push, hne] using h

theorem size_update {t u : Tree} {id : NodeId} {f : Node → Node} (h : t.update id f = .ok u) :
    u.size = t.size := by
  unfold update at h
  split at h
  · cases h; simp [size]
  · cases h

/-- A new node that is overwritten could have been appended as what it is then. -/
theorem update_alloc (t : Tree) (n : Node) (f : Node → Node) :
    (t.alloc n).2.update ⟨t.size⟩ f = .ok (t.alloc (f n)).2 := by
  have hlt : t.size < (t.alloc n).2.size := by simp
  rw [update, if_pos hlt]
  refine congrArg (fun nodes => Except.ok (Tree.mk nodes)) (Array.ext_getElem? fun i => ?_)
  simp only [alloc, size, Array.getElem?_modify, Array.getElem?_push]
  by_cases hi : i = t.nodes.size
  · simp [hi]
  · rw [if_neg (Ne.symm hi), if_neg hi, if_neg hi]

/-- Overwriting one node leaves every other as it was. -/
theorem node_update {t u : Tree} {id : NodeId} {f : Node → Node} (h : t.update id f = .ok u)
    (other : NodeId) :
    u.node other = if other = id then (t.node id).map f else t.node other := by
  unfold update at h
  split at h
  · rename_i hlt
    cases h
    obtain ⟨i⟩ := id
    obtain ⟨j⟩ := other
    simp only [size] at hlt
    by_cases hij : j = i
    · subst hij
      simp [node, Array.getElem_modify, hlt, Except.map]
    · simp [node, size, Array.getElem?_modify, hij, Ne.symm hij]
  · cases h

end Tree

end DecafStatics
