import DecafStatics.Tree.Basic

/-!
# Chains of siblings

A list of nodes is held as a head whose `next` leads from each node to the one after it. Nothing
forces such a chain to end: it may run into a handle that names no node, or turn back into
itself. `Tree.chain` therefore gives the siblings up to the point where the chain stops, together
with the fault that stopped it, if one did. A walk along a chain first does its work on the
siblings and only then meets the fault; a walk that needs the whole list first uses
`Tree.siblings`.

## Implementation notes

Each sibling of a chain that ends is a different node, so a chain that is longer than the tree
has turned back into itself. That is the bound that `Tree.chain` follows a chain to; it is one
more than the size because the handle at which a chain breaks off is looked at as well.

## Main definitions

* `Tree.chain`, `Tree.siblings`, `Tree.takeSiblings` — reading a chain
* `Tree.link` — making a chain out of a list of nodes
* `Tree.Linked` — being the siblings of a chain that ends, as a relation

## Main results

* `Tree.Linked.nodup` — the siblings of a chain that ends are different nodes
* `Tree.siblings_eq_ok_iff` — the siblings can be read exactly if the chain ends, so the bound
  cuts no such chain short
-/

namespace DecafStatics

/-- The siblings that following `next` leads to, and the fault that it runs into behind them, if
the chain has no regular end. -/
structure Chain where
  ids : List NodeId
  stop : Option Fault
  deriving DecidableEq

namespace Chain

/-- The chain with one more sibling in front. -/
def cons (id : NodeId) (c : Chain) : Chain := { c with ids := id :: c.ids }

/-- What is met behind the last sibling: nothing, or a fault. -/
def ending (c : Chain) : Except Fault Unit :=
  match c.stop with
  | none => .ok ()
  | some fault => .error fault

/-- The siblings of a chain with a regular end. -/
def toExcept (c : Chain) : Except Fault (List NodeId) :=
  match c.stop with
  | none => .ok c.ids
  | some fault => .error fault

@[simp] theorem ids_cons (id : NodeId) (c : Chain) : (c.cons id).ids = id :: c.ids := rfl

@[simp] theorem stop_cons (id : NodeId) (c : Chain) : (c.cons id).stop = c.stop := rfl

theorem ending_eq_ok_iff {c : Chain} : c.ending = .ok () ↔ c.stop = none := by
  unfold ending
  split <;> simp_all

theorem toExcept_eq_ok_iff {c : Chain} {ids : List NodeId} :
    c.toExcept = .ok ids ↔ c.stop = none ∧ c.ids = ids := by
  unfold toExcept
  split <;> simp_all

end Chain

namespace Tree

/-- The chain from `head`, followed for at most `bound` siblings. -/
def chainWithin (t : Tree) : Nat → Option NodeId → Chain
  | _, none => ⟨[], none⟩
  | 0, some _ => ⟨[], some .endless⟩
  | bound + 1, some id =>
    match t.node id with
    | .ok n => (t.chainWithin bound n.next).cons id
    | .error fault => ⟨[], some fault⟩

/-- The chain from `head`. -/
def chain (t : Tree) (head : Option NodeId) : Chain := t.chainWithin (t.size + 1) head

/-- The siblings from `head`, provided that they can all be read. -/
def siblings (t : Tree) (head : Option NodeId) : Except Fault (List NodeId) :=
  (t.chain head).toExcept

/-- The chain from a head comes to a regular end, and these are its siblings. -/
inductive Linked (t : Tree) : Option NodeId → List NodeId → Prop where
  | nil : Linked t none []
  | cons {id : NodeId} {n : Node} {ids : List NodeId} :
      t.node id = .ok n → Linked t n.next ids → Linked t (some id) (id :: ids)

/-- The first `count` siblings from `head`, or all of them if there are fewer. Only a sibling
that is asked for has to exist. -/
def takeSiblings (t : Tree) (count : Nat) (head : Option NodeId) : Except Fault (List NodeId) :=
  match (t.chainWithin count head).stop with
  | some (.outOfBounds size index) => .error (.outOfBounds size index)
  | _ => .ok (t.chainWithin count head).ids

/-- Makes each of `ids` but the first the next sibling of the one before it. The last one keeps
whatever follows it. -/
def link (t : Tree) : List NodeId → Except Fault Tree
  | id :: next :: rest => do
    let t ← t.update id fun n => { n with next := some next }
    t.link (next :: rest)
  | _ => .ok t

@[simp] theorem chainWithin_none (t : Tree) (bound : Nat) :
    t.chainWithin bound none = ⟨[], none⟩ := by
  cases bound <;> rfl

@[simp] theorem siblings_none (t : Tree) : t.siblings none = .ok [] := rfl

theorem chainWithin_some {t : Tree} {id : NodeId} {n : Node} (bound : Nat)
    (h : t.node id = .ok n) :
    t.chainWithin (bound + 1) (some id) = (t.chainWithin bound n.next).cons id := by
  simp [chainWithin, h]

/-! ### Chains that end -/

namespace Linked

variable {t : Tree} {head : Option NodeId} {ids : List NodeId}

theorem unique {other : List NodeId} (h : t.Linked head ids) (h' : t.Linked head other) :
    ids = other := by
  induction h generalizing other with
  | nil => cases h'; rfl
  | cons hn _ ih =>
    cases h' with
    | cons hn' ht' =>
      rw [hn] at hn'
      cases hn'
      rw [ih ht']

theorem lt_size (h : t.Linked head ids) : ∀ id ∈ ids, id.index < t.size := by
  induction h with
  | nil => simp
  | cons hn _ ih =>
    intro id hid
    obtain rfl | hid := List.mem_cons.1 hid
    · exact lt_of_node_eq_ok hn
    · exact ih id hid

/-- A sibling is the head of the rest of the chain, which is no longer than the chain. -/
private theorem exists_suffix (h : t.Linked head ids) {id : NodeId} (hid : id ∈ ids) :
    ∃ rest, t.Linked (some id) (id :: rest) ∧ rest.length < ids.length := by
  induction h with
  | nil => simp at hid
  | @cons first n tail hn ht ih =>
    obtain rfl | hid := List.mem_cons.1 hid
    · exact ⟨tail, .cons hn ht, Nat.lt_succ_self _⟩
    · obtain ⟨rest, hrest, hlt⟩ := ih hid
      exact ⟨rest, hrest, Nat.lt_succ_of_lt hlt⟩

/-- The siblings of a chain that ends are different nodes: at the second of two equal ones the
chain would be shorter and the same. -/
theorem nodup (h : t.Linked head ids) : ids.Nodup := by
  induction h with
  | nil => exact .nil
  | @cons id n tail hn ht ih =>
    refine List.nodup_cons.2 ⟨fun hid => ?_, ih⟩
    obtain ⟨rest, hrest, hlt⟩ := ht.exists_suffix hid
    have hsame := (Linked.cons hn ht).unique hrest
    cases hsame
    exact Nat.lt_irrefl _ hlt

end Linked

/-- A list without repetitions of numbers below `n` is no longer than `n`. -/
private theorem length_le_of_nodup {n : Nat} {l : List Nat} (hd : l.Nodup) (h : ∀ a ∈ l, a < n) :
    l.length ≤ n := by
  induction n generalizing l with
  | zero =>
    cases l with
    | nil => simp
    | cons a l => exact absurd (h a (List.mem_cons_self ..)) (Nat.not_lt_zero a)
  | succ n ih =>
    have hlen : (l.erase n).length ≤ n := ih (hd.erase n) fun a ha => by
      have hne : a ≠ n := ((List.Nodup.mem_erase_iff hd).1 ha).1
      have hlt := h a (List.mem_of_mem_erase ha)
      omega
    have := List.length_erase (a := n) (l := l)
    split at this <;> omega

/-- There are no more than `n` handles below `n`. -/
theorem length_le_of_nodup_handles {n : Nat} {ids : List NodeId} (hd : ids.Nodup)
    (h : ∀ id ∈ ids, id.index < n) : ids.length ≤ n := by
  rw [← List.length_map NodeId.index]
  refine length_le_of_nodup ?_ ?_
  · exact List.pairwise_map.2 (hd.imp fun {a b} hne heq => hne (by
      cases a; cases b; simp_all))
  · intro a ha
    obtain ⟨id, hid, rfl⟩ := List.mem_map.1 ha
    exact h id hid

theorem Linked.length_le {t : Tree} {head : Option NodeId} {ids : List NodeId}
    (h : t.Linked head ids) : ids.length ≤ t.size :=
  length_le_of_nodup_handles h.nodup h.lt_size

theorem chainWithin_of_linked {t : Tree} {head : Option NodeId} {ids : List NodeId}
    (h : t.Linked head ids) {bound : Nat} (hb : ids.length ≤ bound) :
    t.chainWithin bound head = ⟨ids, none⟩ := by
  induction h generalizing bound with
  | nil => simp
  | cons hn _ ih =>
    obtain ⟨bound, rfl⟩ : ∃ b, bound = b + 1 := ⟨bound - 1, by simp at hb; omega⟩
    rw [chainWithin_some bound hn, ih (by simpa using hb)]
    rfl

theorem linked_of_chainWithin {t : Tree} {bound : Nat} {head : Option NodeId}
    (h : (t.chainWithin bound head).stop = none) :
    t.Linked head (t.chainWithin bound head).ids := by
  induction bound generalizing head with
  | zero =>
    cases head with
    | none => exact .nil
    | some id => simp [chainWithin] at h
  | succ bound ih =>
    cases head with
    | none => exact .nil
    | some id =>
      cases hn : t.node id with
      | error fault => simp [chainWithin, hn] at h
      | ok n =>
        rw [chainWithin_some bound hn] at h ⊢
        exact .cons hn (ih h)

/-- The siblings can be read exactly if the chain ends. -/
theorem siblings_eq_ok_iff {t : Tree} {head : Option NodeId} {ids : List NodeId} :
    t.siblings head = .ok ids ↔ t.Linked head ids := by
  rw [siblings, Chain.toExcept_eq_ok_iff, chain]
  constructor
  · rintro ⟨hstop, rfl⟩
    exact linked_of_chainWithin hstop
  · intro h
    rw [chainWithin_of_linked h (Nat.le_succ_of_le h.length_le)]
    exact ⟨rfl, rfl⟩

end Tree

end DecafStatics
