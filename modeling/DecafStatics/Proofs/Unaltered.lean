import DecafStatics.CompilationUnit
import DecafStatics.Proofs.Walk

/-!
# Checking leaves the text alone

A check writes into the tree that it walks over, and the dump reads the same tree. The two never
meet: what a check writes are annotations, and of those the dump shows none. The one field that
both of them use is the type of a node, which the check writes on expressions and the dump shows
of declarations.

Nothing is assumed of the tree. Declarations may stand where an expression belongs, nodes may be
shared, and a child may be a handle that names no node. A dump that meets such a handle, or a sink
that is full, ends in the same way before a check and after it.

## Main definitions

* `Node.SameText`, `Tree.SameText` — having the same text, field by field and as it is dumped

## Main results

* `Tree.dump_of_bare_eq` — trees of the same text have the same dump
* `CompilationUnit.sameText_of_check` — a check leaves the text alone
-/

namespace DecafStatics

/-- The nodes differ in annotations at most. The type is one on expressions only. -/
structure Node.SameText (m n : Node) : Prop where
  kind : m.kind = n.kind
  operator : m.operator = n.operator
  name : m.name = n.name
  value : m.value = n.value
  first : m.first = n.first
  second : m.second = n.second
  next : m.next = n.next
  position : m.position = n.position
  ty : m.ty ≠ n.ty → n.kind ∈ [.intConstant, .boolConstant, .stringConstant, .target, .reference,
    .operation, .call, .argument]

/-- The trees have the same nodes but for annotations, and the same dumps to every sink. -/
structure Tree.SameText (u t : Tree) : Prop where
  size : u.size = t.size
  node : ∀ id n, t.node id = .ok n → ∃ m, u.node id = .ok m ∧ m.SameText n
  dump : ∀ level head, u.dump level head = t.dump level head

/-- The constructs that are typed by checking, one by one. -/
theorem NodeKind.mem_of_isExpression {kind : NodeKind} (h : kind.isExpression = true) :
    kind ∈ [.intConstant, .boolConstant, .stringConstant, .target, .reference, .operation, .call,
      .argument] := by
  revert h
  cases kind <;> simp [isExpression]

theorem Node.sameText_of_bare_eq {m n : Node} (h : m.bare = n.bare) : m.SameText n where
  kind := kind_of_bare_eq h
  operator := operator_of_bare_eq h
  name := name_of_bare_eq h
  value := value_of_bare_eq h
  first := first_of_bare_eq h
  second := second_of_bare_eq h
  next := next_of_bare_eq h
  position := position_of_bare_eq h
  ty := by
    intro hne
    cases hk : n.kind.isExpression with
    | true => exact NodeKind.mem_of_isExpression hk
    | false => exact absurd (ty_of_bare_eq h hk) hne

/-! ### Dumps of trees of the same text -/

namespace Tree

variable {t u : Tree} (h : u.bare = t.bare)

include h

/-- Going on with a node that was read, in a way that only the text decides. -/
theorem read_bind_of_bare_eq {f g : Node → Writer Unit}
    (hfg : ∀ m n : Node, m.bare = n.bare → f m = g n) (id : NodeId) :
    (Writer.read (u.node id) >>= f) = (Writer.read (t.node id) >>= g) := by
  cases hn : t.node id with
  | error fault =>
    rw [node_eq_error_of_bare_eq h hn]
    rfl
  | ok n =>
    obtain ⟨m, hm, hbare⟩ := node_of_bare_eq h hn
    rw [hm]
    exact hfg m n hbare

/-- Of the nodes below a variable only their values are shown. -/
theorem writeVariable_of_bare_eq {m n : Node} (hn : m.bare = n.bare)
    (hkind : n.kind.isExpression = false) (level : Nat) :
    u.writeVariable level m = t.writeVariable level n := by
  rw [writeVariable, writeVariable, Node.text_of_bare_eq hn, Node.first_of_bare_eq hn,
    Node.second_of_bare_eq hn, Node.ty_of_bare_eq hn hkind]
  refine bind_congr fun _ => ?_
  dsimp only
  cases n.second with
  | none =>
    cases n.first with
    | none => rfl
    | some length =>
      exact read_bind_of_bare_eq h (fun a b hb => by simp only [Node.value_of_bare_eq hb]) length
  | some init =>
    cases n.first with
    | none =>
      refine bind_congr fun _ => ?_
      exact read_bind_of_bare_eq h (fun a b hb => by simp only [Node.value_of_bare_eq hb]) init
    | some length =>
      refine read_bind_of_bare_eq h (fun a b hb => ?_) length
      rw [Node.value_of_bare_eq hb]
      refine bind_congr fun _ => bind_congr fun _ => ?_
      exact read_bind_of_bare_eq h (fun a b hb => by simp only [Node.value_of_bare_eq hb]) init

/-- Of the nodes that wrap the branches of a conditional only their children are shown. -/
theorem writeBranches_of_bare_eq {m n : Node} (hn : m.bare = n.bare)
    (children : Nat → Option NodeId → Writer Unit) (level : Nat) :
    u.writeBranches children level m = t.writeBranches children level n := by
  rw [writeBranches, writeBranches, Node.first_of_bare_eq hn, Node.second_of_bare_eq hn]
  dsimp only
  cases n.first with
  | none =>
    cases n.second with
    | none => rfl
    | some other =>
      refine bind_congr fun _ => ?_
      exact read_bind_of_bare_eq h (fun a b hb => by rw [Node.first_of_bare_eq hb]) other
  | some branch =>
    refine read_bind_of_bare_eq h (fun a b hb => ?_) branch
    rw [Node.first_of_bare_eq hb, Node.second_of_bare_eq hb]
    refine bind_congr fun _ => bind_congr fun _ => ?_
    cases n.second with
    | none => rfl
    | some other =>
      refine bind_congr fun _ => ?_
      exact read_bind_of_bare_eq h (fun a b hb => by rw [Node.first_of_bare_eq hb]) other

/-- The stanza of a node shows no annotation: where it shows a type the node is a declaration. -/
theorem stanza_of_bare_eq {m n : Node} (hn : m.bare = n.bare)
    (children : Nat → Option NodeId → Writer Unit) (level : Nat) :
    u.stanza children level m = t.stanza children level n := by
  have ty := Node.ty_of_bare_eq hn
  rw [stanza, stanza, Node.kind_of_bare_eq hn, Node.text_of_bare_eq hn, Node.value_of_bare_eq hn,
    Node.operator_of_bare_eq hn, Node.first_of_bare_eq hn, Node.second_of_bare_eq hn]
  cases hkind : n.kind with
  | variableDecl => exact writeVariable_of_bare_eq h hn (by rw [hkind]; rfl) level
  | conditional => exact bind_congr fun _ => writeBranches_of_bare_eq h hn children level
  | externDecl | externType | methodDecl | parameter => rw [ty (by rw [hkind]; rfl)]
  | program | package | block | assignment | call | argument | thenBranch | elseBranch | loop
  | returnValue | breakLoop | continueLoop | operation | target | reference | intConstant
  | boolConstant | stringConstant => rfl

theorem writeChain_of_bare_eq {shown shown' : Node → Writer Unit}
    (hshown : ∀ m n : Node, m.bare = n.bare → shown m = shown' n) (bound : Nat)
    (head : Option NodeId) : u.writeChain shown bound head = t.writeChain shown' bound head := by
  induction bound generalizing head with
  | zero => cases head <;> rfl
  | succ bound ih =>
    cases head with
    | none => rfl
    | some id =>
      refine read_bind_of_bare_eq h (fun m n hb => ?_) id
      rw [hshown m n hb, Node.next_of_bare_eq hb, ih]

theorem dumpWithin_of_bare_eq (bound depth level : Nat) (head : Option NodeId) :
    u.dumpWithin bound depth level head = t.dumpWithin bound depth level head := by
  induction depth generalizing level head with
  | zero => rfl
  | succ depth ih =>
    have children : u.dumpWithin bound depth = t.dumpWithin bound depth :=
      funext fun level => funext fun head => ih level head
    rw [dumpWithin, dumpWithin, children]
    exact writeChain_of_bare_eq h (fun m n hb => stanza_of_bare_eq h hb _ level) bound head

/-- **Trees of the same text have the same dump**, to every sink. -/
theorem dump_of_bare_eq (level : Nat) (head : Option NodeId) :
    u.dump level head = t.dump level head := by
  have bounds : u.dumpBound = t.dumpBound := by
    funext room
    rw [dumpBound, dumpBound, size_of_bare_eq h]
  rw [dump, dump, bounds]
  exact bind_congr fun _ => dumpWithin_of_bare_eq h ..

theorem sameText_of_bare_eq : u.SameText t where
  size := size_of_bare_eq h
  node := fun _ _ hn =>
    (node_of_bare_eq h hn).imp fun _ hm => ⟨hm.1, Node.sameText_of_bare_eq hm.2⟩
  dump := dump_of_bare_eq h

end Tree

/-! ### Checks -/

namespace CompilationUnit

/-- The tree after a check is the one that the check has walked over. -/
theorem bare_tree_of_runCheck {α : Type} {u u' : CompilationUnit} {check : Check α} {a : α}
    {found : List Diagnostic} (hc : check.Walks) (h : u.runCheck check = .ok (a, found, u')) :
    u'.tree.bare = u.tree.bare := by
  obtain ⟨⟨a, s⟩, hrun, h⟩ := bind_eq_ok_iff.1 h
  cases h
  exact (hc hrun).bare_tree

/-- **Checking leaves the text alone.** Whatever the tree, the table and the root are, a check of
the program that comes to an end keeps the text of the tree, and so does a check of any chains of
nodes, one after the other. -/
theorem sameText_of_check {u u' : CompilationUnit} {found : List Diagnostic} :
    (u.check = .ok (found, u') → u'.tree.SameText u.tree) ∧
      ∀ heads : List (Option NodeId),
        u.runCheck (heads.forM Check.statements) = .ok ((), found, u') →
          u'.tree.SameText u.tree := by
  constructor
  · intro h
    obtain ⟨⟨⟨⟩, found, u'⟩, hrun, h⟩ := bind_eq_ok_iff.1 h
    cases h
    exact Tree.sameText_of_bare_eq (bare_tree_of_runCheck (Check.walks_statements _) hrun)
  · intro heads h
    exact Tree.sameText_of_bare_eq
      (bare_tree_of_runCheck (Check.walks_forM Check.walks_statements) h)

/-- A variable that starts with the value of an operation, a loop around a block that declares a
package, and a reference that both the operation and the loop have as their child. -/
def sharing : CompilationUnit where
  tree := ⟨#[
    { Node.blank .variableDecl with
      name := some "b", ty := some .bool, second := some ⟨1⟩, next := some ⟨2⟩ },
    { Node.blank .operation with operator := some .not, first := some ⟨3⟩ },
    { Node.blank .loop with first := some ⟨3⟩, second := some ⟨4⟩ },
    { Node.blank .reference with name := some "b" },
    { Node.blank .block with first := some ⟨5⟩ },
    { Node.blank .package with name := some "P" }]⟩
  table := .empty
  root := some ⟨0⟩

theorem sameText_of_check_sharing :
    (∃ found u', sharing.check = .ok (found, u') ∧ u'.tree ≠ sharing.tree ∧
      u'.tree.SameText sharing.tree) ∧
    ∃ found u', sharing.runCheck ([some ⟨0⟩, some ⟨3⟩].forM Check.statements) =
        .ok ((), found, u') ∧ u'.tree ≠ sharing.tree ∧ u'.tree.SameText sharing.tree := by
  constructor
  · have annotated : sharing.check.toOption.any fun r => r.2.tree ≠ sharing.tree := by
      decide +kernel
    obtain ⟨⟨found, u'⟩, h, hne⟩ := exists_ok_of_any annotated
    exact ⟨found, u', h, by simpa using hne, sameText_of_check.1 h⟩
  · have annotated : (sharing.runCheck ([some ⟨0⟩, some ⟨3⟩].forM
        Check.statements)).toOption.any fun r => r.2.2.tree ≠ sharing.tree := by
      decide +kernel
    obtain ⟨⟨⟨⟩, found, u'⟩, h, hne⟩ := exists_ok_of_any annotated
    exact ⟨found, u', h, by simpa using hne, sameText_of_check.2 _ h⟩

end CompilationUnit

end DecafStatics
