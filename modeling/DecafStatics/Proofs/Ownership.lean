import DecafStatics.Proofs.Held
import Mathlib.Logic.Relation

/-!
# Who owns whom

A node refers to other nodes along three edges: to its two children and to its next sibling.
`Tree.Owns` is that relation, and whatever is said about the shape of a tree is said in terms of it:
that no handle dangles, that nothing lies below itself, that a node stands in one place only.

Edges are part of the text of a tree. Annotations do not change who owns whom.

## Main definitions

* `Tree.Owns`, `Tree.Above` — leading to a node along a certain edge, and along any edge
* `Tree.Closed`, `Tree.Acyclic` — no handle dangles, no node lies below itself
* `Tree.Free` — being at the end of no edge

## Main results

* `Tree.owns_of_bare_eq` — trees of the same text have the same owners
-/

namespace DecafStatics

/-- The ways in which a node refers to another one. -/
inductive Edge where
  | first
  | second
  | next
  deriving DecidableEq

/-- Where an edge of a node leads. -/
def Node.edge (n : Node) : Edge → Option NodeId
  | .first => n.first
  | .second => n.second
  | .next => n.next

namespace Tree

/-- An edge of `owner` leads to `id`. -/
def Owns (t : Tree) (owner : NodeId) (edge : Edge) (id : NodeId) : Prop :=
  t.Has owner fun n => n.edge edge = some id

/-- Some edge of `owner` leads to `id`. -/
def Above (t : Tree) (owner id : NodeId) : Prop := ∃ edge, t.Owns owner edge id

/-- Edges lead to nodes of the tree. -/
def Closed (t : Tree) : Prop := ∀ owner edge id, t.Owns owner edge id → id.index < t.size

/-- No way along edges leads from a node back to it. -/
def Acyclic (t : Tree) : Prop := ∀ id, ¬ Relation.TransGen t.Above id id

/-- No edge leads to the node. -/
def Free (t : Tree) (id : NodeId) : Prop := ∀ owner edge, ¬ t.Owns owner edge id

variable {t u : Tree} {owner id : NodeId} {edge : Edge}

theorem owns_of_node {n : Node} (hn : t.node owner = .ok n) (h : n.edge edge = some id) :
    t.Owns owner edge id := ⟨n, hn, h⟩

theorem owns_of_bare_eq (h : u.bare = t.bare) : u.Owns owner edge id ↔ t.Owns owner edge id := by
  have transfer : ∀ {t u : Tree}, u.bare = t.bare → t.Owns owner edge id →
      u.Owns owner edge id := by
    intro t u h howns
    refine Has.of_bare_eq h howns fun n m hb hn => ?_
    cases edge with
    | first => exact (Node.first_of_bare_eq hb).trans hn
    | second => exact (Node.second_of_bare_eq hb).trans hn
    | next => exact (Node.next_of_bare_eq hb).trans hn
  exact ⟨transfer h.symm, transfer h⟩

theorem above_of_bare_eq (h : u.bare = t.bare) : u.Above = t.Above :=
  funext fun _ => funext fun _ => propext (exists_congr fun _ => owns_of_bare_eq h)

theorem Free.of_bare_eq (h : u.bare = t.bare) (hid : t.Free id) : u.Free id :=
  fun owner edge howns => hid owner edge ((owns_of_bare_eq h).1 howns)

/-! ### Edges that lead to nodes of the tree -/

theorem closed_of_forall (h : ∀ n ∈ t.nodes, ∀ edge ∈ [Edge.first, .second, .next],
    ∀ id ∈ n.edge edge, id.index < t.size) : t.Closed := by
  rintro owner edge id ⟨n, hn, hid⟩
  have mem : edge ∈ [Edge.first, .second, .next] := by cases edge <;> simp
  exact h n (Array.mem_of_getElem? (node_eq_ok_iff.1 hn)) edge mem id hid

theorem free_of_forall (h : ∀ n ∈ t.nodes, ∀ edge ∈ [Edge.first, .second, .next],
    n.edge edge ≠ some id) : t.Free id := by
  rintro owner edge ⟨n, hn, hid⟩
  have mem : edge ∈ [Edge.first, .second, .next] := by cases edge <;> simp
  exact h n (Array.mem_of_getElem? (node_eq_ok_iff.1 hn)) edge mem hid

theorem Closed.lt_size (hc : t.Closed) {n : Node} (hn : t.node owner = .ok n) (edge : Edge)
    (h : n.edge edge = some id) : id.index < t.size := hc owner edge id (owns_of_node hn h)

/-! ### Ways along edges -/

/-- On a way along edges each node but the first has an owner. -/
theorem not_free_of_transGen (h : Relation.TransGen t.Above owner id) : ¬ t.Free id := by
  intro hfree
  obtain ⟨above, -, edge, howns⟩ := Relation.TransGen.tail'_iff.1 h
  exact hfree above edge howns

/-- Where edges lead to later nodes only, nothing lies below itself. -/
theorem acyclic_of_forall (h : ∀ i, (hi : i < t.nodes.size) →
    ∀ edge ∈ [Edge.first, .second, .next], ∀ id ∈ t.nodes[i].edge edge, i < id.index) :
    t.Acyclic := by
  have later : ∀ {a b}, t.Above a b → a.index < b.index := by
    rintro a b ⟨edge, n, hn, hb⟩
    have mem : edge ∈ [Edge.first, .second, .next] := by cases edge <;> simp
    obtain ⟨ha, rfl⟩ := Array.getElem?_eq_some_iff.1 (node_eq_ok_iff.1 hn)
    exact h a.index ha edge mem b hb
  have along : ∀ {a b}, Relation.TransGen t.Above a b → a.index < b.index := by
    intro a b hab
    induction hab with
    | single hab => exact later hab
    | tail _ hbc ih => exact Nat.lt_trans ih (later hbc)
  exact fun id hid => Nat.lt_irrefl _ (along hid)

theorem Acyclic.of_bare_eq (h : u.bare = t.bare) (ht : t.Acyclic) : u.Acyclic := by
  intro id
  rw [above_of_bare_eq h]
  exact ht id

end Tree

end DecafStatics
