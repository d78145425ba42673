import DecafStatics.Proofs.Storage

/-!
# Stale annotations

A tree that is about to be checked may have annotations already, from an earlier check or from
whoever has built it. A check reads none of them. What it finds out is what it finds out on the text
alone, and each node has that in the end, or else what it had before.

## Implementation notes

A check writes words of storage only where there are some, so a node without words is one that has
not been written to. It is the same for the types of expressions and the symbols, which are options.

## Main definitions

* `Tree.overlay` — a tree with the annotations of another one of the same text on top

## Main results

* `Tree.annotate_eq_overlay` — marking a tree is overlaying it with its marked text
* `CompilationUnit.check_of_bare_eq` — checks of trees of the same text find out the same
-/

namespace DecafStatics

/-! ### Overlays -/

/-- The node with the annotations of `found`, where that has any. -/
def Node.overlay (n found : Node) : Node :=
  { n with
    ty := found.ty.or n.ty
    symbol := found.symbol.or n.symbol
    size := if found.size = 0 then n.size else found.size }

/-- The tree with the annotations of `found`, where that has any. -/
def Tree.overlay (t found : Tree) : Tree := ⟨Array.zipWith Node.overlay t.nodes found.nodes⟩

namespace Node

variable {n found : Node}

theorem ty_overlay (h : found.ty.isSome) : (n.overlay found).ty = found.ty :=
  Option.or_of_isSome h

theorem symbol_overlay (h : found.symbol.isSome) : (n.overlay found).symbol = found.symbol :=
  Option.or_of_isSome h

/-- The text of a node has nothing that the node has not. -/
theorem overlay_bare (n : Node) : n.overlay n.bare = n := by
  have ty : n.bare.ty.or n.ty = n.ty := by
    rw [bare]
    dsimp only
    split
    · exact Option.none_or
    · exact Option.or_self
  rw [overlay, ty]
  rfl

/-- Marks can be made on what is laid on top. -/
theorem mark_overlay {e : Event} (h : ∀ x ∈ e.size?, x.2 ≠ 0) (n found : Node) :
    e.mark (n.overlay found) = n.overlay (e.mark found) := by
  cases e with
  | size id words =>
    have positive : words ≠ 0 := h _ rfl
    simp [Event.mark, overlay, positive]
  | type | link | declare | complain => rfl

theorem marked_overlay {es : List Event} (h : ∀ x ∈ Event.sizes es, x.2 ≠ 0) (n found : Node)
    (id : NodeId) : (n.overlay found).marked id es = n.overlay (found.marked id es) := by
  rw [marked, marked]
  have each : ∀ e ∈ es.filter fun e => e.node = id, ∀ x ∈ e.size?, x.2 ≠ 0 := fun e he x hx =>
    h x (List.mem_filterMap.2 ⟨e, (List.mem_filter.1 he).1, hx⟩)
  generalize (es.filter fun e => e.node = id) = marks at each
  induction marks generalizing found with
  | nil => rfl
  | cons e es ih =>
    obtain ⟨he, hes⟩ := List.forall_mem_cons.1 each
    rw [List.foldl_cons, List.foldl_cons, mark_overlay he, ih _ hes]

end Node

namespace Tree

/-- **Marking a tree is overlaying it with its marked text.** -/
theorem annotate_eq_overlay {es : List Event} (h : ∀ x ∈ Event.sizes es, x.2 ≠ 0) (t : Tree) :
    t.annotate es = t.overlay (t.bare.annotate es) := by
  refine congrArg Tree.mk (Array.ext (by simp [annotate, bare]) fun i hi _ => ?_)
  simp [annotate, bare, ← Node.marked_overlay h, Node.overlay_bare]

/-- A node of an overlay comes from a node of either tree. -/
theorem node_overlay {t found : Tree} {id : NodeId} {n : Node}
    (h : (t.overlay found).node id = .ok n) :
    ∃ below above, t.node id = .ok below ∧ found.node id = .ok above ∧ n = below.overlay above := by
  rw [node_eq_ok_iff, overlay, Array.getElem?_zipWith_eq_some] at h
  obtain ⟨below, above, hbelow, habove, rfl⟩ := h
  exact ⟨below, above, node_eq_ok_iff.2 hbelow, node_eq_ok_iff.2 habove, rfl⟩

end Tree

/-! ### Checks of trees of the same text -/

namespace Tree

theorem bare_bare (t : Tree) : t.bare.bare = t.bare := by
  have same : ∀ n : Node, n.bare.bare = n.bare := by
    intro n
    simp only [Node.bare]
    split <;> rfl
  simp [bare, same]

/-- Where a node stands is text. -/
theorem position_of_bare_eq {t u : Tree} (h : u.bare = t.bare) (id : NodeId) :
    u.position id = t.position id := by
  have bare : ∀ t : Tree, t.bare.position id = t.position id := by
    intro t
    cases hn : t.nodes[id.index]? <;> simp [position, Tree.bare, hn, Node.bare]
  rw [← bare u, h, bare t]

end Tree

namespace CompilationUnit

variable {u : CompilationUnit} {t : Tree} {p : Program} {c : Context}

/-- What a check finds out is a matter of the text. -/
theorem Ready.check_eq_overlay (h : u.Ready t p c) {t' : Tree} (ht : t'.bare = t.bare) :
    { u with tree := t' }.check = .ok (reportedFrom { u with tree := t.bare } p c,
      { checkedFrom { u with tree := t.bare } p c with
        tree := t'.overlay (t.bare.annotate (p.eventsFrom c)) }) := by
  have same : reportedFrom { u with tree := t' } p c =
      reportedFrom { u with tree := t.bare } p c := by
    simp only [reportedFrom, Tree.position_of_bare_eq (ht.trans t.bare_bare.symm)]
  have marked : t'.annotate (p.eventsFrom c) = t'.overlay (t.bare.annotate (p.eventsFrom c)) := by
    rw [← ht]
    exact Tree.annotate_eq_overlay (p.ne_zero_of_mem_sizes_eventsFrom h.stands.sound.opened) t'
  rw [(h.of_bare_eq ht).check_eq, same, ← marked]
  rfl

/-- **Stale annotations are never read.** Take two trees with the text of a program that differ in
annotations only, and the symbols that any number of checks of the program have left. The checks of
the two trees report the same and leave the same symbols. Each of the trees is in the end overlaid
with what a check of the bare text leaves on it: a node for which that has found a type or a symbol
has this type or symbol in both of them. -/
theorem check_of_bare_eq (h : u.Holds p) (k : Nat) {t₁ t₂ : Tree} (h₁ : t₁.bare = u.tree.bare)
    (h₂ : t₂.bare = u.tree.bare) :
    ∃ reports v, u.checkTimes k = .ok (reports, v) ∧
      ∃ found clean, { v with tree := u.tree.bare }.check = .ok (found, clean) ∧
        { v with tree := t₁ }.check =
          .ok (found, { clean with tree := t₁.overlay clean.tree }) ∧
        { v with tree := t₂ }.check =
          .ok (found, { clean with tree := t₂.overlay clean.tree }) ∧
        ∀ id n₁ n₂, (t₁.overlay clean.tree).node id = .ok n₁ →
          (t₂.overlay clean.tree).node id = .ok n₂ →
          ∃ n, clean.tree.node id = .ok n ∧
            (n.ty.isSome → n₁.ty = n.ty ∧ n₂.ty = n.ty) ∧
            (n.symbol.isSome → n₁.symbol = n.symbol ∧ n₂.symbol = n.symbol) := by
  obtain ⟨reports, v, hchecks, -, hv⟩ := h.rests.checkTimes h.held h.alone h.addressable k
  obtain ⟨c, ready⟩ := hv.ready h.held h.alone h.addressable
  refine ⟨reports, v, hchecks, _, _, (ready.of_bare_eq u.tree.bare_bare).check_eq,
    ready.check_eq_overlay h₁, ready.check_eq_overlay h₂, ?_⟩
  intro id n₁ n₂ hn₁ hn₂
  obtain ⟨below₁, n, -, hn, rfl⟩ := Tree.node_overlay hn₁
  obtain ⟨below₂, n', -, hn', rfl⟩ := Tree.node_overlay hn₂
  cases hn.symm.trans hn'
  exact ⟨n, hn, fun hty => ⟨Node.ty_overlay hty, Node.ty_overlay hty⟩,
    fun hsymbol => ⟨Node.symbol_overlay hsymbol, Node.symbol_overlay hsymbol⟩⟩

/-- The tree with all annotations that there can be, none of them to the point. -/
def stale (t : Tree) : Tree where
  nodes := t.nodes.map fun n =>
    { n with
      ty := if n.kind.isExpression then some .string else n.ty
      symbol := some ⟨7⟩
      size := 40 }

theorem bare_stale (t : Tree) : (stale t).bare = t.bare := by
  rw [Tree.bare_eq_iff, stale, Array.map_map]
  refine congrArg (t.nodes.map ·) (funext fun n => ?_)
  cases hkind : n.kind.isExpression <;> simp [Node.bare, hkind]

theorem check_of_bare_eq_shadowing :
    (stale shadowingUnit.tree).bare = shadowingUnit.tree.bare ∧
    ∃ reports v, shadowingUnit.checkTimes 1 = .ok (reports, v) ∧
      ∃ found clean, { v with tree := shadowingUnit.tree.bare }.check = .ok (found, clean) ∧
        { v with tree := shadowingUnit.tree }.check =
          .ok (found, { clean with tree := shadowingUnit.tree.overlay clean.tree }) ∧
        { v with tree := stale shadowingUnit.tree }.check =
          .ok (found, { clean with tree := (stale shadowingUnit.tree).overlay clean.tree }) := by
  have text := bare_stale shadowingUnit.tree
  obtain ⟨reports, v, hchecks, found, clean, hclean, hfresh, hstale, -⟩ :=
    check_of_bare_eq holds_shadowing 1 rfl text
  exact ⟨text, reports, v, hchecks, found, clean, hclean, hfresh, hstale⟩

end CompilationUnit

end DecafStatics
