import DecafStatics.Tree.Chain

/-!
# The text of a tree and its annotations

Checking writes into the tree that it walks over, but only what it finds out: the symbol of a
node, its words of storage, and the type of an expression. All else is the text of the program.
`Tree.bare` is the text alone, with every annotation wiped out. The type of a declaration is text,
since it is the parser that gives it.

Two trees with the same text are the same to everything that reads the text only: they have the
same nodes with the same children, and so the same chains.

## Main definitions

* `NodeKind.isExpression` — the constructs whose type is an annotation
* `Node.bare`, `Tree.bare` — what is left without annotations

## Main results

* `Tree.bare_update` — writing an annotation keeps the text
* `Tree.node_of_bare_eq` — a node can be found again in a tree of the same text
* `Tree.chain_of_bare_eq`, `Tree.Linked.of_bare_eq` — trees of the same text have the same chains
-/

namespace DecafStatics

/-- The constructs that are typed by checking and not by the parser. -/
def NodeKind.isExpression : NodeKind → Bool
  | .intConstant | .boolConstant | .stringConstant | .target | .reference | .operation | .call
  | .argument => true
  | _ => false

/-- The node without its annotations. -/
def Node.bare (n : Node) : Node :=
  { n with ty := if n.kind.isExpression then none else n.ty, symbol := none, size := 0 }

/-- The tree without its annotations. -/
def Tree.bare (t : Tree) : Tree := ⟨t.nodes.map Node.bare⟩

namespace Node

@[simp] theorem bare_symbol (n : Node) (symbol : Option SymbolId) :
    { n with symbol := symbol }.bare = n.bare := rfl

@[simp] theorem bare_size (n : Node) (size : Nat) : { n with size := size }.bare = n.bare := rfl

theorem bare_ty {n : Node} (h : n.kind.isExpression = true) (ty : Option Ty) :
    { n with ty := ty }.bare = n.bare := by
  simp [bare, h]

section Fields

variable {m n : Node} (h : m.bare = n.bare)

include h

theorem kind_of_bare_eq : m.kind = n.kind := (congrArg Node.kind h :)

theorem operator_of_bare_eq : m.operator = n.operator := (congrArg Node.operator h :)

theorem name_of_bare_eq : m.name = n.name := (congrArg Node.name h :)

theorem text_of_bare_eq : m.text = n.text := (congrArg Node.text h :)

theorem value_of_bare_eq : m.value = n.value := (congrArg Node.value h :)

theorem first_of_bare_eq : m.first = n.first := (congrArg Node.first h :)

theorem second_of_bare_eq : m.second = n.second := (congrArg Node.second h :)

theorem next_of_bare_eq : m.next = n.next := (congrArg Node.next h :)

theorem position_of_bare_eq : m.position = n.position := (congrArg Node.position h :)

theorem ty_of_bare_eq (hk : n.kind.isExpression = false) : m.ty = n.ty := by
  have hk' : m.kind.isExpression = false := by rw [kind_of_bare_eq h, hk]
  simpa [bare, hk, hk'] using congrArg Node.ty h

end Fields

end Node

namespace Tree

variable {t u : Tree}

theorem bare_eq_iff : t.bare = u.bare ↔ t.nodes.map Node.bare = u.nodes.map Node.bare := by
  simp [bare]

theorem size_of_bare_eq (h : u.bare = t.bare) : u.size = t.size := by
  simpa [size] using congrArg Array.size (bare_eq_iff.1 h)

/-- Writing an annotation keeps the text. -/
theorem bare_update {id : NodeId} {f : Node → Node} (h : t.update id f = .ok u)
    (hf : ∀ n, t.node id = .ok n → (f n).bare = n.bare) : u.bare = t.bare := by
  rw [update] at h
  split at h
  · rename_i hlt
    cases h
    rw [bare_eq_iff]
    refine Array.ext (by simp) fun i hi _ => ?_
    have hi : i < t.nodes.size := by simpa using hi
    by_cases heq : id.index = i
    · subst heq
      simpa [Array.getElem_modify] using hf _ (node_eq_ok_iff.2 (Array.getElem?_eq_getElem hi))
    · simp [Array.getElem_modify, heq]
  · cases h

/-- A node can be found again in a tree of the same text. -/
theorem node_of_bare_eq (h : u.bare = t.bare) {id : NodeId} {n : Node} (hn : t.node id = .ok n) :
    ∃ m, u.node id = .ok m ∧ m.bare = n.bare := by
  have hlt : id.index < u.size := by
    rw [size_of_bare_eq h]
    exact lt_of_node_eq_ok hn
  obtain ⟨m, hm⟩ := node_ok_of_lt hlt
  refine ⟨m, hm, ?_⟩
  have hget := congrArg (fun a : Array Node => a[id.index]?) (bare_eq_iff.1 h)
  simpa [Array.getElem?_map, node_eq_ok_iff.1 hm, node_eq_ok_iff.1 hn] using hget

theorem node_eq_error_of_bare_eq (h : u.bare = t.bare) {id : NodeId} {fault : Fault}
    (ht : t.node id = .error fault) : u.node id = .error fault := by
  rw [node_eq_error_iff] at ht ⊢
  rwa [size_of_bare_eq h]

/-! ### Chains -/

theorem chainWithin_of_bare_eq (h : u.bare = t.bare) (bound : Nat) (head : Option NodeId) :
    u.chainWithin bound head = t.chainWithin bound head := by
  induction bound generalizing head with
  | zero => cases head <;> rfl
  | succ bound ih =>
    cases head with
    | none => rfl
    | some id =>
      cases hn : t.node id with
      | error fault => simp [chainWithin, hn, node_eq_error_of_bare_eq h hn]
      | ok n =>
        obtain ⟨m, hm, hbare⟩ := node_of_bare_eq h hn
        rw [chainWithin_some bound hm, chainWithin_some bound hn, Node.next_of_bare_eq hbare, ih]

theorem chain_of_bare_eq (h : u.bare = t.bare) (head : Option NodeId) :
    u.chain head = t.chain head := by
  rw [chain, chain, size_of_bare_eq h, chainWithin_of_bare_eq h]

theorem siblings_of_bare_eq (h : u.bare = t.bare) (head : Option NodeId) :
    u.siblings head = t.siblings head := by
  rw [siblings, siblings, chain_of_bare_eq h]

theorem Linked.of_bare_eq (h : u.bare = t.bare) {head : Option NodeId} {ids : List NodeId}
    (hl : t.Linked head ids) : u.Linked head ids := by
  rw [← siblings_eq_ok_iff] at hl ⊢
  rwa [siblings_of_bare_eq h]

end Tree

end DecafStatics
