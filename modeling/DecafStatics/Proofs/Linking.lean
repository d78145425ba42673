import DecafStatics.Proofs.Ownership
import Mathlib.Data.List.Nodup

/-!
# Linking nodes into a chain

Linking overwrites the siblings of nodes one after the other. For different nodes the outcome does
not depend on the order, and `Tree.joined` says at once what each node has in the end: the node
behind it in the list, where there is one, and what it had before otherwise.

## Main definitions

* `successor` — the handle behind a handle in a list
* `Tree.joined` — a tree after linking

## Main results

* `Tree.link_eq` — linking different nodes of a tree leads to `Tree.joined`
* `Tree.linked_joined` — nodes without siblings form a chain then
-/

namespace DecafStatics

/-- The handle behind `id` in the list. -/
def successor (id : NodeId) : List NodeId → Option NodeId
  | a :: b :: rest => if a = id then some b else successor id (b :: rest)
  | _ => none

/-- The node with another sibling. -/
def Node.followedBy (n : Node) (next : Option NodeId) : Node := { n with next := next }

@[simp] theorem Node.followedBy_next (n : Node) : n.followedBy n.next = n := rfl

variable {id : NodeId} {ids : List NodeId}

theorem successor_cons_self (rest : List NodeId) : successor id (id :: rest) = rest.head? := by
  cases rest <;> simp [successor]

theorem successor_cons_of_ne {a : NodeId} (h : a ≠ id) (rest : List NodeId) :
    successor id (a :: rest) = successor id rest := by
  cases rest <;> simp [successor, h]

/-- Only handles that others come behind have a successor. -/
theorem successor_eq_none (h : id ∉ ids.dropLast) : successor id ids = none := by
  induction ids with
  | nil => rfl
  | cons a rest ih =>
    cases rest with
    | nil => rfl
    | cons b rest =>
      rw [List.dropLast_cons_cons, List.mem_cons, not_or] at h
      rw [successor_cons_of_ne (Ne.symm h.1), ih h.2]

theorem successor_mem_tail {next : NodeId} (h : successor id ids = some next) :
    next ∈ ids.tail := by
  induction ids with
  | nil => cases h
  | cons a rest ih =>
    by_cases ha : a = id
    · rw [ha, successor_cons_self] at h
      exact List.mem_of_head? h
    · rw [successor_cons_of_ne ha] at h
      exact List.mem_of_mem_tail (ih h)

namespace Tree

/-- The tree where each of `ids` that another one comes behind has that one as its sibling. -/
def joined (t : Tree) (ids : List NodeId) : Tree :=
  ⟨t.nodes.mapIdx fun i n => n.followedBy ((successor ⟨i⟩ ids).or n.next)⟩

variable {t u : Tree}

@[simp] theorem size_joined (t : Tree) (ids : List NodeId) : (t.joined ids).size = t.size := by
  simp [joined, size]

theorem node_joined (t : Tree) (ids : List NodeId) (id : NodeId) :
    (t.joined ids).node id =
      (t.node id).map fun n => n.followedBy ((successor id ids).or n.next) := by
  rw [node, node, size_joined]
  cases h : t.nodes[id.index]? <;> simp [joined, h, Except.map]

theorem node_joined_of_not_mem (h : id ∉ ids.dropLast) : (t.joined ids).node id = t.node id := by
  rw [node_joined, successor_eq_none h]
  cases t.node id <;> rfl

/-- Trees with the same nodes are the same. -/
theorem eq_of_node_eq (hsize : t.size = u.size) (h : ∀ id, t.node id = u.node id) : t = u := by
  obtain ⟨nodes⟩ := t
  obtain ⟨nodes'⟩ := u
  refine congrArg Tree.mk (Array.ext hsize fun i hi hi' => ?_)
  have same := h ⟨i⟩
  rw [node_eq_ok_iff.2 (Array.getElem?_eq_getElem hi'), node_eq_ok_iff,
    Array.getElem?_eq_getElem hi] at same
  exact Option.some.inj same

/-- Overwriting something else than its sibling in a node can as well be done after linking. -/
theorem update_joined {f : Node → Node}
    (hf : ∀ (n : Node) next, f (n.followedBy next) = (f n).followedBy next)
    (hnext : ∀ n, (f n).next = n.next) (ids : List NodeId) (id : NodeId) :
    (t.joined ids).update id f = (t.update id f).map fun t => t.joined ids := by
  by_cases hlt : id.index < t.size
  · obtain ⟨v, hv⟩ : ∃ v, t.update id f = .ok v := ⟨_, if_pos hlt⟩
    obtain ⟨w, hw⟩ : ∃ w, (t.joined ids).update id f = .ok w :=
      ⟨_, if_pos (by rwa [size_joined])⟩
    rw [hv, hw]
    refine congrArg Except.ok (eq_of_node_eq ?_ fun other => ?_)
    · rw [size_update hw, size_joined, size_joined, size_update hv]
    · rw [node_update hw, node_joined, node_joined, node_joined, node_update hv]
      split
      · rename_i heq
        subst heq
        cases t.node other with
        | error fault => rfl
        | ok n => simp only [Except.map, hf, hnext]
      · rfl
  · rw [update, update, size_joined, if_neg hlt, if_neg hlt]
    rfl

/-- **Linking different nodes.** -/
theorem link_eq (hd : ids.Nodup) (h : ∀ id ∈ ids, id.index < t.size) :
    t.link ids = .ok (t.joined ids) := by
  induction ids generalizing t with
  | nil =>
    refine congrArg Except.ok (eq_of_node_eq (by simp) fun id => ?_)
    rw [node_joined_of_not_mem (by simp)]
  | cons a rest ih =>
    cases rest with
    | nil =>
      refine congrArg Except.ok (eq_of_node_eq (by simp) fun id => ?_)
      rw [node_joined_of_not_mem (by simp)]
    | cons b rest =>
      obtain ⟨ha, hrest⟩ := List.nodup_cons.1 hd
      obtain ⟨hlt, hlts⟩ := List.forall_mem_cons.1 h
      obtain ⟨v, hv⟩ : ∃ v, t.update a (fun n => { n with next := some b }) = .ok v :=
        ⟨_, if_pos hlt⟩
      rw [link, hv]
      show v.link (b :: rest) = _
      rw [ih hrest (by rwa [size_update hv])]
      refine congrArg Except.ok (eq_of_node_eq ?_ fun id => ?_)
      · rw [size_joined, size_joined, size_update hv]
      · rw [node_joined, node_joined, node_update hv]
        split
        · rename_i heq
          subst heq
          rw [successor_cons_self, successor_eq_none fun hmem => ha (List.dropLast_subset _ hmem)]
          cases t.node id <;> rfl
        · rename_i hne
          rw [successor_cons_of_ne (Ne.symm hne)]

/-- A chain is a matter of its own nodes. -/
theorem Linked.congr {head : Option NodeId} (h : t.Linked head ids)
    (hnode : ∀ id ∈ ids, u.node id = t.node id) : u.Linked head ids := by
  induction h with
  | nil => exact .nil
  | cons hn _ ih =>
    obtain ⟨first, rest⟩ := List.forall_mem_cons.1 hnode
    exact .cons (first.trans hn) (ih rest)

/-- Nodes without siblings form a chain after linking. -/
theorem linked_joined (hd : ids.Nodup) (h : ∀ id ∈ ids, t.Has id fun n => n.next = none) :
    (t.joined ids).Linked ids.head? ids := by
  induction ids with
  | nil => exact .nil
  | cons a rest ih =>
    obtain ⟨ha, hrest⟩ := List.nodup_cons.1 hd
    obtain ⟨⟨n, hn, hnext⟩, hs⟩ := List.forall_mem_cons.1 h
    refine .cons (n := n.followedBy rest.head?) ?_ ((ih hrest hs).congr fun id hid => ?_)
    · rw [node_joined, hn, successor_cons_self]
      simp only [Except.map, hnext, Option.or_none]
    · have hne : a ≠ id := fun heq => ha (heq ▸ hid)
      rw [node_joined, node_joined, successor_cons_of_ne hne]

end Tree

end DecafStatics
