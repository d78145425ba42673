import DecafStatics.Proofs.Linking
import DecafStatics.Proofs.Run

/-!
# Forests

A tree is a forest if its edges lead to its nodes, no two edges lead to the same node, and nothing
lies below itself. What follows is how a forest can grow: by a new node, by filling the edges of a
node, and by linking nodes into a chain.

## Implementation notes

That nothing lies below itself cannot be read off the order of the nodes: a node may be made before
or after the nodes below it. What carries the proof instead is that a node to which no edge leads
lies on no circle. Edges are only ever added from such a node (`Grafted`), and they lead to
other nodes of this sort.

## Main definitions

* `Tree.Forest` — being a forest
* `Tree.Loose` — being a node of the tree that no edge leads to
* `Tree.Takes` — edges that a node may be given
* `Tree.Grafted` — having given a node edges

## Main results

* `Tree.Grafted.forest` — a node that no edge leads to can take others below it
* `Tree.Forest.alloc`, `Tree.Forest.update`, `Tree.Forest.joined` — the ways to grow
-/

namespace DecafStatics.Tree

/-- Edges lead to nodes of the tree, no two of them to the same one, and none back. -/
structure Forest (t : Tree) : Prop where
  closed : t.Closed
  single : ∀ {owner owner' : NodeId} {edge edge' : Edge} {id : NodeId},
    t.Owns owner edge id → t.Owns owner' edge' id → owner = owner' ∧ edge = edge'
  acyclic : t.Acyclic

/-- A node of the tree that no edge leads to. -/
def Loose (t : Tree) (id : NodeId) : Prop := id.index < t.size ∧ t.Free id

/-- The edges of `n` lead to different nodes, none of which is `id`, that no edge leads to yet. -/
structure Takes (t : Tree) (id : NodeId) (n : Node) : Prop where
  loose : ∀ edge child, n.edge edge = some child → t.Loose child ∧ child ≠ id
  single : ∀ edge edge' child, n.edge edge = some child → n.edge edge' = some child → edge = edge'

variable {t u : Tree} {id child owner : NodeId} {edge : Edge} {ids : List NodeId}

theorem forest_empty : empty.Forest := by
  have none : ∀ {owner edge id}, ¬ empty.Owns owner edge id := by
    rintro owner edge id ⟨n, hn, -⟩
    exact Nat.not_lt_zero _ (lt_of_node_eq_ok hn)
  refine ⟨fun _ _ _ h => (none h).elim, fun h _ => (none h).elim, fun id hid => ?_⟩
  obtain ⟨above, -, edge, howns⟩ := Relation.TransGen.tail'_iff.1 hid
  exact none howns

/-! ### Grafting -/

/-- From `t` to `u`, a node to which no edge leads has been given new edges, if any; they lead to
other nodes to which no edge has led. -/
structure Grafted (t u : Tree) (id : NodeId) : Prop where
  free : t.Free id
  size : t.size ≤ u.size
  keep : ∀ {owner edge child}, owner ≠ id → u.Owns owner edge child → t.Owns owner edge child
  fresh : ∀ {edge child}, u.Owns id edge child →
    t.Owns id edge child ∨ t.Free child ∧ child ≠ id ∧ child.index < u.size
  single : ∀ {edge edge' child}, u.Owns id edge child → u.Owns id edge' child → edge = edge'

namespace Grafted

/-- Still no edge leads to the node. -/
theorem free_after (h : Grafted t u id) : u.Free id := by
  intro owner edge howns
  by_cases heq : owner = id
  · subst heq
    rcases h.fresh howns with hold | ⟨-, hne, -⟩
    · exact h.free owner edge hold
    · exact hne rfl
  · exact h.free owner edge (h.keep heq howns)

theorem closed (h : Grafted t u id) (ht : t.Closed) : u.Closed := by
  intro owner edge child howns
  by_cases heq : owner = id
  · subst heq
    rcases h.fresh howns with hold | ⟨-, -, hlt⟩
    · exact Nat.lt_of_lt_of_le (ht owner edge child hold) h.size
    · exact hlt
  · exact Nat.lt_of_lt_of_le (ht owner edge child (h.keep heq howns)) h.size

/-- A node below `id` was below `id` before, or no edge has led to it. -/
theorem not_owns (h : Grafted t u id) (ht : t.Forest) {edge' : Edge} (hne : owner ≠ id)
    (howns : u.Owns owner edge child) : ¬ u.Owns id edge' child := by
  intro howns'
  have hold := h.keep hne howns
  rcases h.fresh howns' with hold' | ⟨hfree, -⟩
  · exact hne (ht.single hold hold').1
  · exact hfree owner edge hold

theorem unique (h : Grafted t u id) (ht : t.Forest) {owner' : NodeId} {edge' : Edge}
    (howns : u.Owns owner edge child) (howns' : u.Owns owner' edge' child) :
    owner = owner' ∧ edge = edge' := by
  by_cases heq : owner = id <;> by_cases heq' : owner' = id
  · subst heq heq'
    exact ⟨rfl, h.single howns howns'⟩
  · subst heq
    exact (h.not_owns ht heq' howns' howns).elim
  · subst heq'
    exact (h.not_owns ht heq howns howns').elim
  · exact ht.single (h.keep heq howns) (h.keep heq' howns')

/-- A way that does not start at `id` never comes to it, and is one of before. -/
theorem transGen (h : Grafted t u id) {a b : NodeId} (ha : a ≠ id)
    (hab : Relation.TransGen u.Above a b) : Relation.TransGen t.Above a b := by
  induction hab with
  | single hab =>
    obtain ⟨edge, howns⟩ := hab
    exact .single ⟨edge, h.keep ha howns⟩
  | @tail b c hab hbc ih =>
    obtain ⟨edge, howns⟩ := hbc
    have hb : b ≠ id := fun heq => not_free_of_transGen hab (heq ▸ h.free_after)
    exact ih.tail ⟨edge, h.keep hb howns⟩

theorem acyclic (h : Grafted t u id) (ht : t.Acyclic) : u.Acyclic := by
  intro a ha
  by_cases heq : a = id
  · exact not_free_of_transGen ha (heq ▸ h.free_after)
  · exact ht a (h.transGen heq ha)

/-- **Grafting keeps a forest.** -/
theorem forest (h : Grafted t u id) (ht : t.Forest) : u.Forest :=
  ⟨h.closed ht.closed, h.unique ht, h.acyclic ht.acyclic⟩

end Grafted

/-! ### New nodes -/

theorem owns_alloc {n : Node} : (t.alloc n).2.Owns owner edge child ↔
    t.Owns owner edge child ∨ owner = ⟨t.size⟩ ∧ n.edge edge = some child := by
  constructor
  · rintro ⟨m, hm, hchild⟩
    by_cases hlt : owner.index < t.size
    · obtain ⟨m', hm'⟩ := node_ok_of_lt hlt
      rw [node_alloc n hm'] at hm
      cases hm
      exact .inl ⟨m, hm', hchild⟩
    · have hlast : owner = ⟨t.size⟩ := by
        have := lt_of_node_eq_ok hm
        rw [size_alloc] at this
        obtain ⟨i⟩ := owner
        exact congrArg NodeId.mk (Nat.le_antisymm (Nat.le_of_lt_succ this) (Nat.le_of_not_lt hlt))
      subst hlast
      rw [node_alloc_self] at hm
      cases hm
      exact .inr ⟨rfl, hchild⟩
  · rintro (⟨m, hm, hchild⟩ | ⟨rfl, hchild⟩)
    · exact ⟨m, node_alloc n hm, hchild⟩
    · exact ⟨n, node_alloc_self t n, hchild⟩

theorem Closed.free_size (hc : t.Closed) : t.Free ⟨t.size⟩ :=
  fun owner edge howns => Nat.lt_irrefl _ (hc owner edge _ howns)

theorem not_owns_size : ¬ t.Owns ⟨t.size⟩ edge child := by
  rintro ⟨n, hn, -⟩
  exact Nat.lt_irrefl _ (lt_of_node_eq_ok hn)

theorem Forest.alloc (h : t.Forest) {n : Node} (hn : t.Takes ⟨t.size⟩ n) :
    (t.alloc n).2.Forest ∧ (t.alloc n).2.Free ⟨t.size⟩ := by
  have own : ∀ {edge child}, (t.alloc n).2.Owns ⟨t.size⟩ edge child → n.edge edge = some child :=
    fun howns => ((owns_alloc.1 howns).resolve_left not_owns_size).2
  have grafted : Grafted t (t.alloc n).2 ⟨t.size⟩ := by
    refine ⟨h.closed.free_size, by simp, ?_, ?_, ?_⟩
    · intro owner edge child hne howns
      exact (owns_alloc.1 howns).resolve_right fun hlast => hne hlast.1
    · intro edge child howns
      obtain ⟨⟨hlt, hfree⟩, hne⟩ := hn.loose edge child (own howns)
      exact .inr ⟨hfree, hne, by rw [size_alloc]; exact Nat.lt_succ_of_lt hlt⟩
    · exact fun howns howns' => hn.single _ _ _ (own howns) (own howns')
  exact ⟨grafted.forest h, grafted.free_after⟩

theorem Loose.alloc {n : Node} (hid : t.Loose id) (hn : ∀ edge, n.edge edge ≠ some id) :
    (t.alloc n).2.Loose id := by
  refine ⟨by rw [size_alloc]; exact Nat.lt_succ_of_lt hid.1, fun owner edge howns => ?_⟩
  rcases owns_alloc.1 howns with hold | ⟨-, hedge⟩
  · exact hid.2 owner edge hold
  · exact hn edge hedge

/-! ### Nodes that are given edges -/

/-- A node to which no edge leads can be given edges in place of those it has. -/
theorem Forest.update (h : t.Forest) {f : Node → Node} {m : Node} (hid : t.Free id)
    (hm : t.node id = .ok m) (hf : t.Takes id (f m))
    (hu : t.update id f = .ok u) : u.Forest ∧ u.Free id := by
  have own : ∀ {edge child}, u.Owns id edge child → (f m).edge edge = some child := by
    rintro edge child ⟨n, hn, hchild⟩
    rw [node_update hu, if_pos rfl, hm] at hn
    cases hn
    exact hchild
  have grafted : Grafted t u id := by
    refine ⟨hid, Nat.le_of_eq (size_update hu).symm, ?_, ?_, ?_⟩
    · rintro owner edge child hne ⟨n, hn, hchild⟩
      rw [node_update hu, if_neg hne] at hn
      exact ⟨n, hn, hchild⟩
    · intro edge child howns
      obtain ⟨⟨hlt, hfree⟩, hne⟩ := hf.loose edge child (own howns)
      exact .inr ⟨hfree, hne, by rwa [size_update hu]⟩
    · exact fun howns howns' => hf.single _ _ _ (own howns) (own howns')
  exact ⟨grafted.forest h, grafted.free_after⟩

theorem Loose.update {f : Node → Node} {m : Node} (hm : t.node owner = .ok m)
    (hf : ∀ edge, (f m).edge edge ≠ some id) (hu : t.update owner f = .ok u) (hid : t.Loose id) :
    u.Loose id := by
  refine ⟨by rw [size_update hu]; exact hid.1, ?_⟩
  rintro other edge ⟨n, hn, hchild⟩
  rw [node_update hu] at hn
  split at hn
  · rw [hm] at hn
    cases hn
    exact hf edge hchild
  · exact hid.2 other edge ⟨n, hn, hchild⟩

/-! ### Chains -/

theorem owns_joined (howns : (t.joined ids).Owns owner edge child) :
    t.Owns owner edge child ∨ edge = .next ∧ successor owner ids = some child := by
  obtain ⟨n, hn, hchild⟩ := howns
  rw [node_joined] at hn
  obtain ⟨m, hm, rfl⟩ := map_eq_ok_iff.1 hn
  cases edge with
  | first => exact .inl ⟨m, hm, hchild⟩
  | second => exact .inl ⟨m, hm, hchild⟩
  | next =>
    cases hs : successor owner ids with
    | none =>
      rw [hs] at hchild
      exact .inl ⟨m, hm, hchild⟩
    | some next =>
      rw [hs] at hchild
      exact .inr ⟨rfl, hchild⟩

theorem Loose.joined (hid : t.Loose id) (h : id ∉ ids.tail) : (t.joined ids).Loose id := by
  refine ⟨by rw [size_joined]; exact hid.1, fun owner edge howns => ?_⟩
  rcases owns_joined howns with hold | ⟨-, hnext⟩
  · exact hid.2 owner edge hold
  · exact h (successor_mem_tail hnext)

/-- Nodes that no edge leads to can be linked into a chain. The induction links from the end: when
a node is given its sibling, no edge leads to either of the two. -/
theorem Forest.joined (h : t.Forest) (hd : ids.Nodup) (hloose : ∀ id ∈ ids, t.Loose id) :
    (t.joined ids).Forest := by
  induction ids with
  | nil =>
    rwa [eq_of_node_eq (size_joined t []) fun id => node_joined_of_not_mem (List.not_mem_nil)]
  | cons a rest ih =>
    obtain ⟨ha, hrest⟩ := List.nodup_cons.1 hd
    obtain ⟨hown, hothers⟩ := List.forall_mem_cons.1 hloose
    have hfree : (t.joined rest).Free a :=
      (hown.joined fun hmem => ha (List.mem_of_mem_tail hmem)).2
    refine Grafted.forest ⟨hfree, by simp, ?_, ?_, ?_⟩ (ih hrest hothers)
    · rintro owner edge child hne ⟨n, hn, hchild⟩
      rw [node_joined, successor_cons_of_ne (Ne.symm hne), ← node_joined] at hn
      exact ⟨n, hn, hchild⟩
    · intro edge child howns
      rcases owns_joined howns with ⟨n, hn, hchild⟩ | ⟨-, hnext⟩
      · refine .inl ⟨n, ?_, hchild⟩
        rwa [node_joined_of_not_mem fun hmem => ha (List.dropLast_subset _ hmem)]
      · rw [successor_cons_self] at hnext
        obtain ⟨others, rfl⟩ := List.head?_eq_some_iff.1 hnext
        have hlone : (t.joined (child :: others)).Loose child :=
          (hothers child (List.mem_cons_self ..)).joined (List.nodup_cons.1 hrest).1
        exact .inr ⟨hlone.2, fun heq => ha (heq ▸ List.mem_cons_self ..), by simpa using hlone.1⟩
    · intro edge edge' child howns howns'
      have lone : ∀ {child}, successor a (a :: rest) = some child → t.Free child := by
        intro child hnext
        rw [successor_cons_self] at hnext
        exact (hothers child (List.mem_of_head? hnext)).2
      rcases owns_joined howns with hold | ⟨rfl, hnext⟩
      · rcases owns_joined howns' with hold' | ⟨-, hnext'⟩
        · exact (h.single hold hold').2
        · exact (lone hnext' a edge hold).elim
      · rcases owns_joined howns' with hold' | ⟨rfl, -⟩
        · exact (lone hnext a edge' hold').elim
        · rfl

end DecafStatics.Tree
