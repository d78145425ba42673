import DecafStatics.Proofs.Indentation
import DecafStatics.Proofs.Lines

/-!
# What the dump of an expression says

The dump of an expression, line by line, read off the syntax.

## Main definitions

* `Expr.lines` — the lines of the dump of an expression
* `Tree.NodeSays`, `Tree.ChainSays` — what is shown of a node, and from a node on

## Main results

* `Tree.chainSays_expr`, `Tree.says_dump` — what the dump of an expression says
-/

namespace DecafStatics

/-! ### The lines of an expression -/

def Literal.heading : Literal → Heading
  | int _ value => ⟨.int, toString value.toInt⟩
  | bool _ value => ⟨.truth, truthLabel value⟩
  | string _ text => ⟨.string, text⟩

namespace Expr

mutual

/-- The lines of the dump of an expression at a level. -/
def lines (level : Nat) : Expr → List Line
  | literal l => [⟨level, l.heading⟩]
  | plain _ _ name => [⟨level, .name, name⟩]
  | element _ _ name index =>
    ⟨level, .name, name⟩ :: ⟨level, .openIndex, ""⟩ ::
      (index.lines (level + 1) ++ [⟨level, .closeIndex, ""⟩])
  | unary _ op _ operand => ⟨level, .operation, op.symbol⟩ :: operand.lines (level + 1)
  | binary _ op _ left right =>
    ⟨level, .operation, op.symbol⟩ :: (left.lines (level + 1) ++ right.lines (level + 1))
  | call _ name arguments =>
    ⟨level, .call, name⟩ :: ⟨level + 1, .openArguments, ""⟩ ::
      (argumentsLines (level + 2) arguments ++ [⟨level + 1, .closeArguments, ""⟩])

/-- The lines of the dump of the arguments of a call at a level. -/
def argumentsLines (level : Nat) : List (NodeId × Expr) → List Line
  | [] => []
  | (_, e) :: rest => ⟨level, .argument, ""⟩ :: (e.lines level ++ argumentsLines level rest)

end

theorem argumentsLines_eq (level : Nat) (arguments : List (NodeId × Expr)) :
    argumentsLines level arguments =
      arguments.flatMap fun a => ⟨level, .argument, ""⟩ :: a.2.lines level := by
  induction arguments with
  | nil => rfl
  | cons a rest ih => rw [argumentsLines, ih, List.flatMap_cons, List.cons_append]

end Expr

/-! ### What a dump says -/

namespace Tree

open Writer

variable {t : Tree} {bound level : Nat} {id : NodeId}

/-- What a node shows of itself and what is below it. -/
def NodeSays (t : Tree) (bound level : Nat) (id : NodeId) (lines : List Line) : Prop :=
  ∀ depth, (Writer.read (t.node id) >>= t.stanza (t.dumpWithin bound depth) level).Says
    (dumped lines)

/-- What is shown from a node on. -/
def ChainSays (t : Tree) (bound level : Nat) (head : Option NodeId) (lines : List Line) : Prop :=
  ∀ depth, (t.dumpWithin bound depth level head).Says (dumped lines)

/-- A chain is shown sibling by sibling. -/
theorem says_chain {α : Type} {l : List α} {g : α → NodeId} {f : α → List Line}
    {head : Option NodeId} {writeNode : Node → Writer Unit} (h : t.Linked head (l.map g))
    (hshown : ∀ a ∈ l, (Writer.read (t.node (g a)) >>= writeNode).Says (dumped (f a))) :
    (t.writeChain writeNode bound head).Says (dumped (l.flatMap f)) := by
  induction l generalizing head bound with
  | nil =>
    cases h
    rw [writeChain_none]
    exact says_pure
  | cons a rest ih =>
    obtain ⟨ha, hrest⟩ := List.forall_mem_cons.1 hshown
    cases h with
    | cons hn hlinked =>
      cases bound with
      | zero => exact says_throw _ _
      | succ bound =>
        rw [hn, Writer.read, pure_bind] at ha
        rw [List.flatMap_cons, dumped_append]
        exact .read hn (ha.bind (ih hlinked hrest))

theorem chainSays_of_linked {α : Type} {l : List α} {g : α → NodeId} {f : α → List Line}
    {head : Option NodeId} (h : t.Linked head (l.map g))
    (hshown : ∀ a ∈ l, t.NodeSays bound level (g a) (f a)) :
    t.ChainSays bound level head (l.flatMap f) := by
  intro depth
  cases depth with
  | zero => exact says_throw _ _
  | succ depth => exact says_chain h fun a ha => hshown a ha depth

/-- What stands alone is shown alone. -/
theorem chainSays_alone {lines : List Line} (h : t.Has id fun n => n.next = none)
    (hshown : t.NodeSays bound level id lines) : t.ChainSays bound level (some id) lines := by
  obtain ⟨n, hn, hnext⟩ := h
  have linked : t.Linked (some id) ([()].map fun _ => id) := .cons hn (hnext ▸ .nil)
  have chain : t.ChainSays bound level (some id) ([()].flatMap fun _ => lines) :=
    chainSays_of_linked linked fun _ _ => hshown
  rwa [List.flatMap_singleton] at chain

section Nodes

variable {name : String} {access : Access} {op : Operator} {operand left right index : NodeId}
  {lines lines' : List Line}

theorem nodeSays_literal {l : Literal} (hl : t.HasLiteral l) :
    t.NodeSays bound level l.id [⟨level, l.heading⟩] := by
  intro depth
  cases l with
  | int id value =>
    obtain ⟨n, hn, hkind, hvalue⟩ := hl
    refine .read hn ?_
    simp only [stanza, hkind, hvalue]
    exact says_writeLine level ⟨.int, toString value.toInt⟩
  | bool id value =>
    obtain ⟨n, hn, hkind, hvalue⟩ := hl
    refine .read hn ?_
    simp only [stanza, hkind, hvalue]
    exact says_writeLine level ⟨.truth, truthLabel value⟩
  | string id text =>
    obtain ⟨n, hn, hkind, htext⟩ := hl
    refine .read hn ?_
    simp only [stanza, hkind, htext]
    exact says_writeLine level ⟨.string, text⟩

theorem nodeSays_plain
    (h : t.Has id fun n => n.kind = access.kind ∧ n.text = name ∧ n.first = none) :
    t.NodeSays bound level id [⟨level, .name, name⟩] := by
  obtain ⟨n, hn, hkind, htext, hfirst⟩ := h
  refine fun depth => .read hn ?_
  have line := (says_writeLine level ⟨.name, name⟩).bind says_pure
  rw [String.append_empty] at line
  cases access <;>
  · simp only [stanza, hkind, Access.kind, hfirst, htext, Option.isSome_none,
      Bool.false_eq_true, if_false]
    exact line

theorem nodeSays_element
    (h : t.Has id fun n => n.kind = access.kind ∧ n.text = name ∧ n.first = some index)
    (hindex : t.ChainSays bound (level + 1) (some index) lines) :
    t.NodeSays bound level id (⟨level, .name, name⟩ :: ⟨level, .openIndex, ""⟩ ::
      (lines ++ [⟨level, .closeIndex, ""⟩])) := by
  obtain ⟨n, hn, hkind, htext, hfirst⟩ := h
  refine fun depth => .read hn ?_
  have all := (says_writeLine level ⟨.name, name⟩).bind
    ((says_writeLine level ⟨.openIndex, ""⟩).bind
      ((hindex depth).bind (says_writeLine level ⟨.closeIndex, ""⟩)))
  simp only [← dumped_append] at all
  cases access <;>
  · simp only [stanza, hkind, Access.kind, hfirst, htext, Option.isSome_some, if_true]
    exact all

theorem nodeSays_unary (arity : op.cls.arity = 1)
    (h : t.Has id fun n => n.kind = .operation ∧ n.operator = some op ∧
      n.first = some operand ∧ n.second = none)
    (hoperand : t.ChainSays bound (level + 1) (some operand) lines) :
    t.NodeSays bound level id (⟨level, .operation, op.symbol⟩ :: lines) := by
  obtain ⟨n, hn, hkind, hop, hfirst, -⟩ := h
  have unary : (some op).any Operator.isUnary = true := op.isUnary_iff_arity.2 arity
  refine fun depth => .read hn ?_
  have all := (says_writeLine level ⟨.operation, op.symbol⟩).bind
    ((hoperand depth).bind says_pure)
  rw [String.append_empty, ← dumped_append] at all
  simp only [stanza, hkind, hop, hfirst, unary, if_true]
  exact all

theorem nodeSays_binary (arity : op.cls.arity = 2)
    (h : t.Has id fun n => n.kind = .operation ∧ n.operator = some op ∧
      n.first = some left ∧ n.second = some right)
    (hleft : t.ChainSays bound (level + 1) (some left) lines)
    (hright : t.ChainSays bound (level + 1) (some right) lines') :
    t.NodeSays bound level id (⟨level, .operation, op.symbol⟩ :: (lines ++ lines')) := by
  obtain ⟨n, hn, hkind, hop, hfirst, hsecond⟩ := h
  have binary : ¬ (some op).any Operator.isUnary = true := by
    rw [Option.any_some, Operator.isUnary_eq_false arity]
    exact Bool.false_ne_true
  refine fun depth => .read hn ?_
  have all := (says_writeLine level ⟨.operation, op.symbol⟩).bind
    ((hleft depth).bind (hright depth))
  simp only [← dumped_append] at all
  simp only [stanza, hkind, hop, hfirst, hsecond, if_neg binary]
  exact all

theorem nodeSays_argument {wrapper : NodeId} (h : t.HasArgument wrapper id)
    (hargument : t.ChainSays bound level (some id) lines) :
    t.NodeSays bound level wrapper (⟨level, .argument, ""⟩ :: lines) := by
  obtain ⟨n, hn, hkind, hfirst⟩ := h
  refine fun depth => .read hn ?_
  have all := (says_writeLine level ⟨.argument, ""⟩).bind (hargument depth)
  rw [← dumped_append] at all
  simp only [stanza, hkind, hfirst]
  exact all

theorem nodeSays_call
    (h : t.Has id fun n => n.kind = .call ∧ n.text = name ∧
      t.ChainSays bound (level + 2) n.first lines) :
    t.NodeSays bound level id (⟨level, .call, name⟩ :: ⟨level + 1, .openArguments, ""⟩ ::
      (lines ++ [⟨level + 1, .closeArguments, ""⟩])) := by
  obtain ⟨n, hn, hkind, htext, harguments⟩ := h
  refine fun depth => .read hn ?_
  have all := (says_writeLine level ⟨.call, name⟩).bind
    ((says_writeLine (level + 1) ⟨.openArguments, ""⟩).bind
      ((harguments depth).bind (says_writeLine (level + 1) ⟨.closeArguments, ""⟩)))
  simp only [← dumped_append] at all
  simp only [stanza, hkind, htext]
  exact all

end Nodes

/-- **What the dump of an expression says.** -/
theorem chainSays_expr {e : Expr} (he : t.HasExpr e) (hlone : t.Lone e.lone) :
    t.ChainSays bound level (some e.id) (e.lines level) := by
  induction e generalizing level with
  | literal l =>
    cases he with
    | literal hl =>
      exact chainSays_alone (hlone _ (List.mem_singleton_self _)) (nodeSays_literal hl)
  | plain id access name =>
    cases he with
    | plain hn => exact chainSays_alone (hlone _ (List.mem_singleton_self _)) (nodeSays_plain hn)
  | element id access name index ih =>
    cases he with
    | element hn hi =>
      obtain ⟨hown, hlone⟩ := List.forall_mem_cons.1 hlone
      exact chainSays_alone hown (nodeSays_element hn (ih hi hlone))
  | unary id op arity operand ih =>
    cases he with
    | unary hn ho =>
      obtain ⟨hown, hlone⟩ := List.forall_mem_cons.1 hlone
      exact chainSays_alone hown (nodeSays_unary arity hn (ih ho hlone))
  | binary id op arity left right ihl ihr =>
    cases he with
    | binary hn hl hr =>
      obtain ⟨hown, hlone⟩ := List.forall_mem_cons.1 hlone
      obtain ⟨hleft, hright⟩ := List.forall_mem_append.1 hlone
      exact chainSays_alone hown (nodeSays_binary arity hn (ihl hl hleft) (ihr hr hright))
  | call id name arguments ih =>
    cases he with
    | call hn hw ha =>
      obtain ⟨hown, hlone⟩ := List.forall_mem_cons.1 hlone
      rw [Expr.argumentsLone_eq] at hlone
      refine chainSays_alone hown (nodeSays_call (hn.imp fun n hn => ?_))
      obtain ⟨hkind, htext, hlinked⟩ := hn
      refine ⟨hkind, htext, ?_⟩
      rw [Expr.argumentsLines_eq]
      refine chainSays_of_linked hlinked fun a hmem => nodeSays_argument (hw a hmem) ?_
      exact ih a hmem (ha a hmem) fun id hid => hlone id (List.mem_flatMap.2 ⟨a, hmem, hid⟩)

/-- The dump of an expression says its lines, unless there is a fault. -/
theorem says_dump {e : Expr} (he : t.HasExpr e) (hlone : t.Lone e.lone) :
    (t.dump level (some e.id)).Says (dumped (e.lines level)) := by
  intro sink hroom
  exact chainSays_expr he hlone _ sink hroom

end Tree

end DecafStatics
