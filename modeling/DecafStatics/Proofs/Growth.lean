import DecafStatics.Proofs.Forest
import DecafStatics.Tree.Build

/-!
# How building lets a forest grow

A construct of the grammar has two places for what is below it. In each of them stands a chain,
which is made either of nodes that are given or of nodes that the construct brings with it: the
wrappers around the arguments of a call, say. `Part` is such a place.

## Implementation notes

A tree grows by steps, each of which leaves the old nodes as they were but for siblings
(`Tree.Grown`), so that what one step has made is there after the next one. Which siblings change
and to which nodes edges are added is said by two lists, and these add up along the steps.

A new node has a handle of its own if there is one left. `Part.count` says how many are needed.

## Main definitions

* `Tree.Ready` — being a node that can be given to a construct
* `Tree.Grown` — being a forest that has grown out of a tree
* `Part`, `Part.build` — one place of a construct, and how it is filled

## Main results

* `Part.build_ok` — a place can be filled with nodes that are ready
* `Part.build_both_ok` — so can two places with different ones
-/

namespace DecafStatics

namespace Tree

/-- A node of the tree without a sibling that no edge leads to. -/
def Ready (t : Tree) (id : NodeId) : Prop := t.Free id ∧ t.Has id fun n => n.next = none

/-- A forest that has come out of `t` by siblings for the nodes of `listed`, edges to the nodes of
`used`, and new nodes. -/
structure Grown (used listed : List NodeId) (t u : Tree) : Prop where
  forest : u.Forest
  kept : ∀ {id : NodeId} {n : Node}, t.node id = .ok n →
    ∃ next, u.node id = .ok (n.followedBy next) ∧ (id ∉ listed → next = n.next)
  loose : ∀ {id : NodeId}, t.Loose id → id ∉ used → u.Loose id

variable {t u v : Tree} {id : NodeId} {ids used listed used' listed' : List NodeId} {n : Node}

theorem Ready.loose (h : t.Ready id) : t.Loose id := by
  obtain ⟨hfree, n, hn, -⟩ := h
  exact ⟨lt_of_node_eq_ok hn, hfree⟩

namespace Grown

/-- What is given no sibling is as it was. -/
theorem node (h : Grown used listed t u) (hid : id ∉ listed) (hn : t.node id = .ok n) :
    u.node id = .ok n := by
  obtain ⟨next, hnode, hnext⟩ := h.kept hn
  rwa [hnext hid, Node.followedBy_next] at hnode

theorem size_le (h : Grown used listed t u) : t.size ≤ u.size := by
  refine Nat.le_of_not_lt fun hlt => ?_
  obtain ⟨n, hn⟩ := @node_ok_of_lt t ⟨u.size⟩ hlt
  obtain ⟨next, hnode, -⟩ := h.kept hn
  exact Nat.lt_irrefl _ (lt_of_node_eq_ok hnode)

theorem ready (h : Grown used listed t u) (hid : t.Ready id) (hused : id ∉ used)
    (hlisted : id ∉ listed) : u.Ready id := by
  obtain ⟨n, hn, hnext⟩ := hid.2
  exact ⟨(h.loose hid.loose hused).2, n, h.node hlisted hn, hnext⟩

theorem trans (h : Grown used listed t u) (h' : Grown used' listed' u v) :
    Grown (used ++ used') (listed ++ listed') t v := by
  refine ⟨h'.forest, fun {id n} hn => ?_, fun hid hused => ?_⟩
  · obtain ⟨next, hu, hnext⟩ := h.kept hn
    obtain ⟨next', hv, hnext'⟩ := h'.kept hu
    refine ⟨next', hv, fun hmem => ?_⟩
    rw [List.mem_append, not_or] at hmem
    exact (hnext' hmem.2).trans (hnext hmem.1)
  · rw [List.mem_append, not_or] at hused
    exact h'.loose (h.loose hid hused.1) hused.2

/-- Only old nodes are spoken of. -/
theorem of_old (h : Grown used listed t u) (hu : ∀ id, id.index < t.size → id ∈ used → id ∈ used')
    (hl : ∀ id, id.index < t.size → id ∈ listed → id ∈ listed') : Grown used' listed' t u := by
  refine ⟨h.forest, fun {id n} hn => ?_, fun {id} hid hused => ?_⟩
  · obtain ⟨next, hnode, hnext⟩ := h.kept hn
    exact ⟨next, hnode, fun hmem => hnext fun hlisted => hmem (hl id (lt_of_node_eq_ok hn) hlisted)⟩
  · exact h.loose hid fun hmem => hused (hu id hid.1 hmem)

end Grown

end Tree

/-- The children that a node leads to. -/
def Node.children (n : Node) : List NodeId := n.first.toList ++ n.second.toList

/-- Where a node has no sibling, its edges lead to its children. -/
theorem Node.mem_children {n : Node} (hnext : n.next = none) {edge : Edge} {child : NodeId}
    (h : n.edge edge = some child) : child ∈ n.children := by
  cases edge with
  | first => exact List.mem_append_left _ (Option.mem_toList.2 h)
  | second => exact List.mem_append_right _ (Option.mem_toList.2 h)
  | next => exact absurd (hnext.symm.trans h) nofun

namespace Tree

variable {t u : Tree} {id : NodeId} {ids : List NodeId} {n : Node}

/-- Different children that no edge leads to can be taken. -/
theorem takes_children (hnext : n.next = none) (hd : n.children.Nodup)
    (hloose : ∀ child ∈ n.children, t.Loose child) (hid : id ∉ n.children) : t.Takes id n := by
  have apart : ∀ {child}, n.first = some child → n.second ≠ some child := by
    intro child hfirst hsecond
    exact (List.nodup_append.1 hd).2.2 child (Option.mem_toList.2 hfirst) child
      (Option.mem_toList.2 hsecond) rfl
  refine ⟨fun edge child h => ⟨hloose child (Node.mem_children hnext h), ?_⟩, ?_⟩
  · rintro rfl
    exact hid (Node.mem_children hnext h)
  · intro edge edge' child h h'
    cases edge <;> cases edge' <;>
      first
      | rfl
      | exact (apart h h').elim
      | exact (apart h' h).elim
      | exact absurd (hnext.symm.trans h) nofun
      | exact absurd (hnext.symm.trans h') nofun

/-- A new node takes its children below it. -/
theorem Forest.grown_alloc (h : t.Forest) (hnext : n.next = none) (hd : n.children.Nodup)
    (hloose : ∀ child ∈ n.children, t.Loose child) :
    Grown n.children [] t (t.alloc n).2 ∧ (t.alloc n).2.Ready ⟨t.size⟩ := by
  have hnew : ⟨t.size⟩ ∉ n.children := fun hmem => Nat.lt_irrefl _ (hloose _ hmem).1
  have htakes := takes_children hnext hd hloose hnew
  obtain ⟨hforest, hfree⟩ := h.alloc htakes
  refine ⟨⟨hforest, fun hn => ⟨_, node_alloc n hn, fun _ => rfl⟩, fun hid hused => ?_⟩,
    hfree, n, node_alloc_self t n, hnext⟩
  exact hid.alloc fun edge hedge => hused (Node.mem_children hnext hedge)

/-- Nodes that are ready can be linked. -/
theorem Forest.grown_joined (h : t.Forest) (hd : ids.Nodup) (hloose : ∀ id ∈ ids, t.Loose id) :
    Grown ids ids.dropLast t (t.joined ids) := by
  refine ⟨h.joined hd hloose, fun {id n} hn => ?_, fun hid hused => ?_⟩
  · refine ⟨(successor id ids).or n.next, by rw [node_joined, hn]; rfl, fun hmem => ?_⟩
    rw [successor_eq_none hmem, Option.none_or]
  · exact hid.joined fun hmem => hused (List.mem_of_mem_tail hmem)

end Tree

namespace Build

variable {α β : Type} {t u : Tree} {ids : List NodeId}

theorem run_bind_of_ok {m : Build α} {f : α → Build β} {a : α} (h : m.run t = .ok (a, u)) :
    (m >>= f).run t = (f a).run u := by
  rw [StateT.run_bind, h]
  rfl

/-- Only what the first one of two computations does in the tree at hand is of interest. -/
theorem run_bind_congr {m m' : Build α} (h : m.run t = m'.run t) (f : α → Build β) :
    (m >>= f).run t = (m' >>= f).run t := by
  rw [StateT.run_bind, StateT.run_bind, h]

theorem run_add (h : t.size < maxHandles) (n : Node) :
    (add n).run t = .ok (⟨t.size⟩, (t.alloc n).2) := by
  rw [← Tree.alloc_fst h n]
  rfl

theorem run_update_alloc (n : Node) (f : Node → Node) (t : Tree) :
    (update ⟨t.size⟩ f).run (t.alloc n).2 = .ok ((), (t.alloc (f n)).2) := by
  show (Tree.update _ _ f).map _ = _
  rw [Tree.update_alloc]
  rfl

/-- A new node that is written to could have been appended as a whole. -/
theorem run_make (h : t.size < maxHandles) (kind : NodeKind) (f : Node → Node) :
    (make kind f).run t = (add (f (Node.blank kind))).run t := by
  rw [make, create, run_bind_of_ok (run_add h _), run_bind_of_ok (run_update_alloc ..), run_add h]
  rfl

/-- The same goes for each of some nodes. -/
theorem run_mapM_make {kind : NodeKind} {f : α → Node → Node} {l : List α}
    (h : t.size + l.length ≤ maxHandles) :
    (l.mapM fun a => make kind (f a)).run t =
      ((l.map fun a => f a (Node.blank kind)).mapM add).run t := by
  induction l generalizing t with
  | nil => rfl
  | cons a rest ih =>
    rw [List.length_cons] at h
    have first := run_add (by omega : t.size < maxHandles) (f a (Node.blank kind))
    have others : (rest.mapM fun a => make kind (f a)).run (t.alloc (f a (Node.blank kind))).2 = _ :=
      ih (by rw [Tree.size_alloc]; omega)
    rw [List.map_cons, List.mapM_cons, List.mapM_cons, run_bind_of_ok first,
      run_bind_of_ok ((run_make (by omega) kind (f a)).trans first), StateT.run_bind,
      StateT.run_bind, others]

theorem run_link (hd : ids.Nodup) (h : ∀ id ∈ ids, id.index < t.size) :
    (link ids).run t = .ok (ids.head?, t.joined ids) := by
  show (t.link ids).map _ = _
  rw [Tree.link_eq hd h]
  rfl

end Build

/-- One of the two places of a construct: a chain of nodes that are given, or of new ones. -/
inductive Part where
  | given (ids : List NodeId)
  | made (nodes : List Node)

namespace Part

/-- Fills the place, and gives the head of the chain that stands in it. -/
def build : Part → Build (Option NodeId)
  | given ids => Build.link ids
  | made nodes => do Build.link (← nodes.mapM Build.add)

/-- The given nodes that edges lead to then. -/
def used : Part → List NodeId
  | given ids => ids
  | made nodes => nodes.flatMap Node.children

/-- The given nodes that have a sibling then: all but the last one of a list. -/
def listed : Part → List NodeId
  | given ids => ids.dropLast
  | made _ => []

/-- The new nodes. -/
def count : Part → Nat
  | given _ => 0
  | made nodes => nodes.length

/-- New nodes have no siblings of their own. -/
def Proper : Part → Prop
  | given _ => True
  | made nodes => ∀ n ∈ nodes, n.next = none

/-- The nodes that stand in the place are `ids`. -/
def Holds (u : Tree) (ids : List NodeId) : Part → Prop
  | given list => ids = list
  | made nodes => List.Forall₂ (fun id n => ∃ next, u.node id = .ok (n.followedBy next)) ids nodes

/-- The heads that a place can have: a place in which nothing stands has none. -/
def Admits (head : Option NodeId) : Part → Prop
  | given [] => head = none
  | _ => True

/-- The place has been filled with the chain of `ids`. -/
structure Filled (p : Part) (t u : Tree) (head : Option NodeId) (ids : List NodeId) : Prop where
  grown : Tree.Grown p.used p.listed t u
  size : u.size = t.size + p.count
  linked : u.Linked head ids
  holds : p.Holds u ids
  loose : ∀ id ∈ head, u.Loose id
  place : ∀ id ∈ ids, id ∈ p.used ∨ t.size ≤ id.index

variable {t u v : Tree} {p first second : Part} {head a b : Option NodeId}
  {ids as bs : List NodeId}

theorem listed_subset_used : p.listed ⊆ p.used := by
  cases p with
  | given ids => exact List.dropLast_subset ids
  | made nodes => exact List.nil_subset _

/-- What stands in a place is a matter of the nodes that stand there. -/
theorem Holds.congr (h : p.Holds t ids) (hnode : ∀ id ∈ ids, u.node id = t.node id) :
    p.Holds u ids := by
  cases p with
  | given list => exact h
  | made nodes =>
    refine (List.forall₂_iff_zip.2 ⟨h.length_eq, fun {id n} hmem => ?_⟩)
    obtain ⟨next, hn⟩ := (List.forall₂_iff_zip.1 h).2 hmem
    exact ⟨next, (hnode id (List.of_mem_zip hmem).1).trans hn⟩

theorem Holds.admits (h : p.Holds t ids) (hlinked : t.Linked head ids) : p.Admits head := by
  cases p with
  | given list =>
    cases list with
    | nil =>
      cases h
      cases hlinked
      rfl
    | cons _ _ => trivial
  | made _ => trivial

/-- The head of a chain is one of its nodes. -/
theorem mem_of_linked (h : t.Linked head ids) {id : NodeId} (hid : id ∈ head) : id ∈ ids := by
  cases h with
  | nil => cases hid
  | cons _ _ =>
    cases hid
    exact List.mem_cons_self ..

theorem filled_given (h : t.Forest) (hd : ids.Nodup) (hready : ∀ id ∈ ids, t.Ready id) :
    (given ids).Filled t (t.joined ids) ids.head? ids := by
  have hloose := fun id hid => (hready id hid).loose
  refine ⟨h.grown_joined hd hloose, Tree.size_joined t ids,
    Tree.linked_joined hd fun id hid => (hready id hid).2, rfl, fun id hid => ?_,
    fun id hid => .inl hid⟩
  obtain ⟨rest, rfl⟩ := List.head?_eq_some_iff.1 hid
  exact (hloose id (List.mem_cons_self ..)).joined (List.nodup_cons.1 hd).1

/-- Appending nodes one after the other. -/
theorem mapM_add_ok {nodes : List Node} (h : t.Forest) (hn : ∀ n ∈ nodes, n.next = none)
    (hd : (nodes.flatMap Node.children).Nodup)
    (hloose : ∀ id ∈ nodes.flatMap Node.children, t.Loose id)
    (hroom : t.size + nodes.length ≤ maxHandles) :
    ∃ ids u, (nodes.mapM Build.add).run t = .ok (ids, u) ∧
      Tree.Grown (nodes.flatMap Node.children) [] t u ∧ u.size = t.size + nodes.length ∧
      List.Forall₂ (fun id n => u.node id = .ok n) ids nodes ∧ ids.Nodup ∧
      ∀ id ∈ ids, t.size ≤ id.index ∧ u.Ready id := by
  induction nodes generalizing t with
  | nil =>
    refine ⟨[], t, rfl, ⟨h, fun hn => ⟨_, hn, fun _ => rfl⟩, fun hid _ => hid⟩, rfl, .nil, .nil, ?_⟩
    simp
  | cons n rest ih =>
    obtain ⟨hnext, hnexts⟩ := List.forall_mem_cons.1 hn
    rw [List.flatMap_cons] at hd hloose
    obtain ⟨hown, hothers, hapart⟩ := List.nodup_append.1 hd
    obtain ⟨hgrown, hnew⟩ := h.grown_alloc hnext hown
      fun id hid => hloose id (List.mem_append_left _ hid)
    rw [List.length_cons] at hroom
    obtain ⟨ids, u, hrun, hgrown', hsize, hall, hids, hplace⟩ := ih hgrown.forest hnexts hothers
      (fun id hid => hgrown.loose (hloose id (List.mem_append_right _ hid))
        fun hmem => hapart id hmem id hid rfl) (by rw [Tree.size_alloc]; omega)
    have hlast : ⟨t.size⟩ ∉ rest.flatMap Node.children :=
      fun hmem => Nat.lt_irrefl _ (hloose _ (List.mem_append_right _ hmem)).1
    refine ⟨⟨t.size⟩ :: ids, u, ?_, hgrown.trans hgrown', ?_, .cons ?_ hall, ?_, ?_⟩
    · have added := Build.run_add (by omega : t.size < maxHandles) n
      rw [List.mapM_cons, Build.run_bind_of_ok added, Build.run_bind_of_ok hrun]
      rfl
    · rw [hsize, Tree.size_alloc, List.length_cons]
      omega
    · exact hgrown'.node (List.not_mem_nil) (Tree.node_alloc_self t n)
    · refine List.nodup_cons.2 ⟨fun hmem => ?_, hids⟩
      have hlt := (hplace _ hmem).1
      rw [Tree.size_alloc] at hlt
      exact Nat.not_succ_le_self _ hlt
    · have hready := hgrown'.ready hnew hlast (List.not_mem_nil)
      refine List.forall_mem_cons.2 ⟨⟨Nat.le_refl _, hready⟩, ?_⟩
      intro id hid
      have hlt := (hplace id hid).1
      rw [Tree.size_alloc] at hlt
      exact ⟨Nat.le_of_succ_le hlt, (hplace id hid).2⟩

/-- **Filling a place.** -/
theorem build_ok (hp : p.Proper) (h : t.Forest) (hd : p.used.Nodup)
    (hready : ∀ id ∈ p.used, t.Ready id) (hroom : t.size + p.count ≤ maxHandles) :
    ∃ head u ids, p.build.run t = .ok (head, u) ∧ p.Filled t u head ids := by
  cases p with
  | given ids =>
    exact ⟨_, _, ids, Build.run_link hd fun id hid => (hready id hid).loose.1,
      filled_given h hd hready⟩
  | made nodes =>
    obtain ⟨ids, v, hrun, hgrown, hsize, hall, hids, hplace⟩ :=
      mapM_add_ok h hp hd (fun id hid => (hready id hid).loose) hroom
    have hfilled := filled_given hgrown.forest hids fun id hid => (hplace id hid).2
    have hnew : ∀ {id : NodeId}, id.index < t.size → id ∉ ids :=
      fun hlt hid => Nat.lt_irrefl _ (Nat.lt_of_lt_of_le hlt (hplace _ hid).1)
    refine ⟨ids.head?, v.joined ids, ids, ?_, ?_, hfilled.size.trans hsize, hfilled.linked, ?_,
      hfilled.loose, ?_⟩
    · show (nodes.mapM Build.add >>= Build.link).run t = _
      rw [Build.run_bind_of_ok hrun, Build.run_link hids fun id hid => (hplace id hid).2.loose.1]
    · refine (hgrown.trans hfilled.grown).of_old (fun id hlt hid => ?_) fun id hlt hid => ?_
      · exact (List.mem_append.1 hid).resolve_right (hnew hlt)
      · exact absurd (List.dropLast_subset ids hid) (hnew hlt)
    · exact hall.imp fun id n hn => ⟨_, by rw [Tree.node_joined, hn]; rfl⟩
    · exact fun id hid => .inr (hplace id hid).1

/-- Two places have been filled, with different nodes. -/
structure BothFilled (first second : Part) (t u : Tree) (a b : Option NodeId)
    (as bs : List NodeId) : Prop where
  grown : Tree.Grown (first.used ++ second.used) (first.listed ++ second.listed) t u
  size : u.size = t.size + (first.count + second.count)
  firsts : u.Linked a as ∧ first.Holds u as
  seconds : u.Linked b bs ∧ second.Holds u bs
  nodup : (a.toList ++ b.toList).Nodup
  loose : ∀ id ∈ a.toList ++ b.toList, u.Loose id
  place : ∀ id ∈ as ++ bs, id ∈ first.used ++ second.used ∨ t.size ≤ id.index

/-- The heads of the two chains are nodes that are used or new. -/
theorem BothFilled.place_head (h : BothFilled first second t u a b as bs) {id : NodeId}
    (hid : id ∈ a.toList ++ b.toList) : id ∈ first.used ++ second.used ∨ t.size ≤ id.index := by
  refine h.place id ?_
  rcases List.mem_append.1 hid with hid | hid
  · exact List.mem_append_left _ (mem_of_linked h.firsts.1 (Option.mem_toList.1 hid))
  · exact List.mem_append_right _ (mem_of_linked h.seconds.1 (Option.mem_toList.1 hid))

/-- **Filling two places**, one after the other. The second one takes nothing away from the
first. -/
theorem build_both_ok (hp : first.Proper) (hp' : second.Proper) (h : t.Forest)
    (hd : (first.used ++ second.used).Nodup)
    (hready : ∀ id ∈ first.used ++ second.used, t.Ready id)
    (hroom : t.size + (first.count + second.count) ≤ maxHandles) :
    ∃ a u b v as bs, first.build.run t = .ok (a, u) ∧ second.build.run u = .ok (b, v) ∧
      BothFilled first second t v a b as bs := by
  obtain ⟨hown, hown', hapart⟩ := List.nodup_append.1 hd
  have hother : ∀ {id}, id ∈ second.used → id ∉ first.used :=
    fun hid hmem => hapart _ hmem _ hid rfl
  obtain ⟨a, u, as, hrun, hfirst⟩ :=
    build_ok hp h hown (fun id hid => hready id (List.mem_append_left _ hid)) (by omega)
  have hsize := hfirst.size
  obtain ⟨b, v, bs, hrun', hsecond⟩ := build_ok hp' hfirst.grown.forest hown'
    (fun id hid => hfirst.grown.ready (hready id (List.mem_append_right _ hid)) (hother hid)
      fun hmem => hother hid (listed_subset_used hmem)) (by omega)
  -- what stands in the first place is not used for the second one, which nothing of it goes into
  have hfree : ∀ id ∈ as, id ∉ second.used := by
    intro id hid hmem
    rcases hfirst.place id hid with hused | hnew
    · exact hother hmem hused
    · have hlt := (hready id (List.mem_append_right _ hmem)).loose.1
      exact Nat.lt_irrefl _ (Nat.lt_of_lt_of_le hlt hnew)
  have hkeep : ∀ id ∈ as, v.node id = u.node id := by
    intro id hid
    obtain ⟨n, hn⟩ := Tree.node_ok_of_lt (hfirst.linked.lt_size id hid)
    rw [hn, hsecond.grown.node (fun hmem => hfree id hid (listed_subset_used hmem)) hn]
  refine ⟨a, u, b, v, as, bs, hrun, hrun', hfirst.grown.trans hsecond.grown,
    by rw [hsecond.size, hsize, Nat.add_assoc], ⟨hfirst.linked.congr hkeep, hfirst.holds.congr hkeep⟩, ⟨hsecond.linked, hsecond.holds⟩,
    ?_, ?_, ?_⟩
  · have single : ∀ head : Option NodeId, head.toList.Nodup := fun head => by cases head <;> simp
    refine List.nodup_append.2 ⟨single a, single b, ?_⟩
    rintro id hid _ hid' rfl
    have has := mem_of_linked hfirst.linked (Option.mem_toList.1 hid)
    rcases hsecond.place id (mem_of_linked hsecond.linked (Option.mem_toList.1 hid')) with h | h
    · exact hfree id has h
    · exact Nat.lt_irrefl _ (Nat.lt_of_lt_of_le (hfirst.linked.lt_size id has) h)
  · intro id hid
    rcases List.mem_append.1 hid with hid | hid
    · have has := mem_of_linked hfirst.linked (Option.mem_toList.1 hid)
      exact hsecond.grown.loose (hfirst.loose id (Option.mem_toList.1 hid)) (hfree id has)
    · exact hsecond.loose id (Option.mem_toList.1 hid)
  · intro id hid
    rcases List.mem_append.1 hid with hid | hid
    · exact (hfirst.place id hid).imp_left (List.mem_append_left _)
    · refine (hsecond.place id hid).imp (List.mem_append_right _) fun hle => ?_
      exact Nat.le_trans hfirst.grown.size_le hle

end Part

end DecafStatics
