import DecafStatics.Proofs.Growth

/-!
# Building keeps a tree a forest

The constructs of the grammar, with what each of them is given and what stands in it in the end.
Whatever is built out of nodes that are ready, one construct after the other and from nothing, is
a forest: no node has two owners, nothing lies below itself, and no handle dangles.

## Implementation notes

All constructs but the conditional come before the nodes that they bring with them, so a construct
is made in one of two ways. It is appended bare, and its edges are set when its places are filled
(`Plan.before`); or its places are filled first, and it is appended with its edges
(`Plan.after`). What is below it is older or newer, but no edge has led to it up to then.

All of this is about trees in which each node has a handle of its own. Handles are words of 32 bits,
and behind the last one they start from zero again, with nodes that have owners long since.

## Main definitions

* `Construct`, `Construct.build` — the constructs, and how each is built
* `Construct.plan` — the node of a construct with what stands in its two places
* `Construct.Admissible` — being given different nodes that are ready, with handles left for the
  new ones
* `Tree.Built` — having come out of the empty tree construct by construct

## Main results

* `Construct.build_ok` — what building one construct does to a forest
* `Tree.Built.forest` — what has been built is a forest
-/

namespace DecafStatics

/-- A node, with what stands in its two places. -/
structure Plan where
  node : Node
  first : Part := .given []
  second : Part := .given []

namespace Plan

/-- Nothing hangs in the node yet, and neither has it a sibling nor have the nodes it brings. -/
structure Proper (p : Plan) : Prop where
  bare : p.node.children = [] ∧ p.node.next = none
  first : p.first.Proper
  second : p.second.Proper

/-- The given nodes that edges lead to then. -/
def used (p : Plan) : List NodeId := p.first.used ++ p.second.used

/-- The given nodes that have a sibling then. -/
def listed (p : Plan) : List NodeId := p.first.listed ++ p.second.listed

/-- The new nodes: those that the construct brings with it, and its own one. -/
def count (p : Plan) : Nat := p.first.count + p.second.count + 1

/-- The node with its edges. -/
def filled (p : Plan) (a b : Option NodeId) : Node := { p.node with first := a, second := b }

/-- Appends the bare node and hangs what stands in its places into it afterwards. -/
def before (p : Plan) (hang : Option NodeId → Option NodeId → Node → Node) : Build NodeId := do
  let id ← Build.add p.node
  let a ← p.first.build
  let b ← p.second.build
  Build.update id (hang a b)
  return id

/-- Appends the node behind what stands in its places. -/
def after (p : Plan) : Build NodeId := do
  let a ← p.first.build
  let b ← p.second.build
  Build.add (p.filled a b)

/-- The outcome of building: `id` names a new node, ready to be given to a construct in its turn,
with what the plan says in its places. The nodes of before are the same, but for the siblings of
those that are listed. -/
structure Outcome (p : Plan) (t u : Tree) (id : NodeId) : Prop where
  grown : Tree.Grown p.used p.listed t u
  size : u.size = t.size + p.count
  new : t.size ≤ id.index
  ready : u.Ready id
  holds : ∃ a b as bs, u.node id = .ok (p.filled a b) ∧
    (u.siblings a = .ok as ∧ p.first.Holds u as) ∧ (u.siblings b = .ok bs ∧ p.second.Holds u bs)

variable {p : Plan} {t u v : Tree} {a b : Option NodeId} {as bs : List NodeId}

/-- What stands in the two places is still there when nothing happens to their nodes. -/
theorem holds_of_filled {id : NodeId} (h : Part.BothFilled p.first p.second t u a b as bs)
    (hid : v.node id = .ok (p.filled a b)) (hnode : ∀ id ∈ as ++ bs, v.node id = u.node id) :
    ∃ a b as bs, v.node id = .ok (p.filled a b) ∧
      (v.siblings a = .ok as ∧ p.first.Holds v as) ∧
      (v.siblings b = .ok bs ∧ p.second.Holds v bs) := by
  have hfirst := fun id hid => hnode id (List.mem_append_left bs hid)
  have hsecond := fun id hid => hnode id (List.mem_append_right as hid)
  exact ⟨a, b, as, bs, hid,
    ⟨Tree.siblings_eq_ok_iff.2 (h.firsts.1.congr hfirst), h.firsts.2.congr hfirst⟩,
    Tree.siblings_eq_ok_iff.2 (h.seconds.1.congr hsecond), h.seconds.2.congr hsecond⟩

theorem after_ok (hp : p.Proper) (h : t.Forest) (hd : p.used.Nodup)
    (hready : ∀ id ∈ p.used, t.Ready id) (hroom : t.size + p.count ≤ maxHandles) :
    ∃ id u, p.after.run t = .ok (id, u) ∧ p.Outcome t u id := by
  rw [count] at hroom
  obtain ⟨a, u, b, v, as, bs, hrun, hrun', hfilled⟩ :=
    Part.build_both_ok hp.first hp.second h hd hready (by omega)
  have hsize := hfilled.size
  obtain ⟨hgrown, hnew⟩ := hfilled.grown.forest.grown_alloc (n := p.filled a b) hp.bare.2
    hfilled.nodup hfilled.loose
  refine ⟨⟨v.size⟩, (v.alloc (p.filled a b)).2, ?_, ?_, ?_, hfilled.grown.size_le, hnew,
    holds_of_filled hfilled (Tree.node_alloc_self v _) fun id hid => ?_⟩
  · rw [after, Build.run_bind_of_ok hrun, Build.run_bind_of_ok hrun', Build.run_add (by omega)]
  · refine (hfilled.grown.trans hgrown).of_old (fun id hlt hid => ?_) fun id hlt hid => ?_
    · refine (List.mem_append.1 hid).elim (fun hid => hid) fun hchild => ?_
      exact (hfilled.place_head hchild).resolve_right (Nat.not_le_of_lt hlt)
    · rwa [List.append_nil] at hid
  · rw [Tree.size_alloc, hsize, count, Nat.add_assoc]
  · have hlt : id.index < v.size := (List.mem_append.1 hid).elim
      (hfilled.firsts.1.lt_size id) (hfilled.seconds.1.lt_size id)
    obtain ⟨n, hn⟩ := Tree.node_ok_of_lt hlt
    rw [hn, Tree.node_alloc _ hn]

theorem listed_subset_used : p.listed ⊆ p.used := by
  intro id hid
  refine List.mem_append.2 ?_
  exact (List.mem_append.1 hid).imp (Part.listed_subset_used ·) (Part.listed_subset_used ·)

theorem run_before {hang : Option NodeId → Option NodeId → Node → Node} {w : Tree}
    (hlt : t.size < maxHandles)
    (hrun : p.first.build.run (t.alloc p.node).2 = .ok (a, u))
    (hrun' : p.second.build.run u = .ok (b, v))
    (hw : v.update ⟨t.size⟩ (hang a b) = .ok w) : (p.before hang).run t = .ok (⟨t.size⟩, w) := by
  have hung : (Build.update ⟨t.size⟩ (hang a b)).run v = .ok ((), w) := by
    show (v.update _ _).map _ = _
    rw [hw]
    rfl
  rw [before, Build.run_bind_of_ok (Build.run_add hlt _), Build.run_bind_of_ok hrun,
    Build.run_bind_of_ok hrun', Build.run_bind_of_ok hung]
  rfl

/-- The outcome of hanging what stands in the places of a node into it. -/
theorem outcome_of_hung {f : Node → Node} {w : Tree} (hp : p.Proper) (h : t.Forest)
    (hready : ∀ id ∈ p.used, t.Ready id)
    (hfilled : Part.BothFilled p.first p.second (t.alloc p.node).2 v a b as bs)
    (hf : f p.node = p.filled a b) (hw : v.update ⟨t.size⟩ f = .ok w) :
    p.Outcome t w ⟨t.size⟩ := by
  obtain ⟨hgrown, hnew⟩ := h.grown_alloc hp.bare.2 (by simp [hp.bare.1]) (by simp [hp.bare.1])
  have hown : ⟨t.size⟩ ∉ p.used := fun hmem => Nat.lt_irrefl _ (hready _ hmem).loose.1
  have hunlisted : ⟨t.size⟩ ∉ p.listed := fun hmem => hown (listed_subset_used hmem)
  have hfree : v.Free ⟨t.size⟩ := (hfilled.grown.ready hnew hown hunlisted).1
  have hnode : v.node ⟨t.size⟩ = .ok p.node :=
    hfilled.grown.node hunlisted (Tree.node_alloc_self t _)
  -- the children are given nodes or later ones, and hence not the node itself
  have hlater : ∀ {id : NodeId}, id ∈ p.used ∨ (t.alloc p.node).2.size ≤ id.index →
      id ≠ ⟨t.size⟩ := by
    rintro id (hused | hle) rfl
    · exact hown hused
    · rw [Tree.size_alloc] at hle
      exact Nat.not_succ_le_self _ hle
  have htakes : v.Takes ⟨t.size⟩ (f p.node) := by
    rw [hf]
    exact Tree.takes_children hp.bare.2 hfilled.nodup hfilled.loose
      fun hmem => hlater (hfilled.place_head hmem) rfl
  obtain ⟨hforest, hfree'⟩ := hfilled.grown.forest.update hfree hnode htakes hw
  have hself : w.node ⟨t.size⟩ = .ok (p.filled a b) := by
    rw [Tree.node_update hw, if_pos rfl, hnode, ← hf]
    rfl
  have hother : ∀ id : NodeId, id ≠ ⟨t.size⟩ → w.node id = v.node id :=
    fun id hne => by rw [Tree.node_update hw, if_neg hne]
  refine ⟨⟨hforest, fun {id n} hn => ?_, fun {id} hid hused => ?_⟩, ?_, Nat.le_refl _,
    ⟨hfree', _, hself, hp.bare.2⟩,
    holds_of_filled hfilled hself fun id hid => hother id (hlater (hfilled.place id hid))⟩
  · rw [hother id fun heq => Nat.lt_irrefl _ (heq ▸ Tree.lt_of_node_eq_ok hn)]
    exact hfilled.grown.kept (Tree.node_alloc _ hn)
  · have hlone := hgrown.loose hid (by simp [hp.bare.1])
    refine (hfilled.grown.loose hlone hused).update hnode (fun edge hedge => ?_) hw
    rw [hf] at hedge
    have hchild := Node.mem_children (n := p.filled a b) hp.bare.2 hedge
    exact hused ((hfilled.place_head hchild).resolve_right (Nat.not_le_of_lt hlone.1))
  · rw [Tree.size_update hw, hfilled.size, Tree.size_alloc, count]
    omega

theorem before_ok {hang : Option NodeId → Option NodeId → Node → Node}
    (hhang : ∀ a b, p.first.Admits a → p.second.Admits b → hang a b p.node = p.filled a b)
    (hp : p.Proper) (h : t.Forest) (hd : p.used.Nodup) (hready : ∀ id ∈ p.used, t.Ready id)
    (hroom : t.size + p.count ≤ maxHandles) :
    ∃ id u, (p.before hang).run t = .ok (id, u) ∧ p.Outcome t u id := by
  rw [count] at hroom
  obtain ⟨hgrown, hnew⟩ := h.grown_alloc hp.bare.2 (by simp [hp.bare.1]) (by simp [hp.bare.1])
  obtain ⟨a, u, b, v, as, bs, hrun, hrun', hfilled⟩ :=
    Part.build_both_ok hp.first hp.second hgrown.forest hd
      (fun id hid => hgrown.ready (hready id hid) (by simp [hp.bare.1]) (List.not_mem_nil))
      (by rw [Tree.size_alloc]; omega)
  have hlt : t.size < v.size :=
    Nat.lt_of_lt_of_le hnew.loose.1 hfilled.grown.size_le
  obtain ⟨w, hw⟩ : ∃ w, v.update ⟨t.size⟩ (hang a b) = .ok w := ⟨_, if_pos hlt⟩
  have hhung : hang a b p.node = p.filled a b :=
    hhang a b (hfilled.firsts.2.admits hfilled.firsts.1)
      (hfilled.seconds.2.admits hfilled.seconds.1)
  exact ⟨_, w, run_before (by omega) hrun hrun' hw, outcome_of_hung hp h hready hfilled hhung hw⟩

end Plan

/-! ### The constructs of the grammar -/

/-- A call of one of the builders, or making a node with nothing in it. -/
inductive Construct where
  | blank (kind : NodeKind)
  | intConstant (value : Int32)
  | boolConstant (value : Bool)
  | stringConstant (literal : String)
  | reference (name : String)
  | target (name : String)
  | element (kind : NodeKind) (name : String) (index : NodeId)
  | binary (op : Operator) (left right : NodeId)
  | unary (op : Operator) (operand : NodeId)
  | call (name : String) (arguments : List NodeId)
  | assignment (left right : NodeId)
  | returnValue (value : Option NodeId)
  | loop (condition body : NodeId)
  | conditional (condition yes : NodeId) (no : Option NodeId)
  | block (locals statements : List NodeId)
  | scalar (name : String) (ty : Ty)
  | array (name : String) (ty : Ty) (length : Int32)
  | initialized (name : String) (ty : Ty) (value : NodeId)
  | parameter (name : String) (ty : Ty)
  | method (name : String) (ty : Ty) (params : List NodeId) (body : NodeId)
  | externDecl (name : String) (ty : Ty) (params : List Ty)
  | package (name : String) (fields methods : List NodeId)
  | program (externs : List NodeId) (main : NodeId)

namespace Construct

/-- Building the construct. -/
def build : Construct → Build NodeId
  | blank kind => Build.create kind
  | intConstant value => Build.intConstant value
  | boolConstant value => Build.boolConstant value
  | stringConstant literal => Build.stringConstant literal
  | reference name => Build.reference name
  | target name => Build.target name
  | element kind name index => Build.element kind name index
  | binary op left right => Build.binary op left right
  | unary op operand => Build.unary op operand
  | call name arguments => Build.call name arguments
  | assignment left right => Build.assignment left right
  | returnValue value => Build.returnValue value
  | loop condition body => Build.loop condition body
  | conditional condition yes no => Build.conditional condition yes no
  | block locals statements => Build.block locals statements
  | scalar name ty => Build.scalar name ty
  | array name ty length => Build.array name ty length
  | initialized name ty value => Build.initialized name ty value
  | parameter name ty => Build.parameter name ty
  | method name ty params body => Build.method name ty params body
  | externDecl name ty params => Build.externDecl name ty params
  | package name fields methods => Build.package name fields methods
  | program externs main => Build.program externs main

/-- The nodes that the construct is given. -/
def given : Construct → List NodeId
  | element _ _ index => [index]
  | binary _ left right => [left, right]
  | unary _ operand => [operand]
  | call _ arguments => arguments
  | assignment left right => [left, right]
  | returnValue value => value.toList
  | loop condition body => [condition, body]
  | conditional condition yes no => condition :: yes :: no.toList
  | block locals statements => locals ++ statements
  | initialized _ _ value => [value]
  | method _ _ params body => params ++ [body]
  | package _ fields methods => fields ++ methods
  | program externs main => externs ++ [main]
  | _ => []

/-- A node with a name, and with nothing else. -/
def named (kind : NodeKind) (name : String) : Node := { Node.blank kind with name := some name }

/-- A node with a name and a type, and with nothing else. -/
def typed (kind : NodeKind) (name : String) (ty : Ty) : Node :=
  { named kind name with ty := some ty }

/-- The node of the construct, and what stands in its two places. -/
def plan : Construct → Plan
  | blank kind => { node := Node.blank kind }
  | intConstant value => { node := { Node.blank .intConstant with value := value } }
  | boolConstant value =>
    { node := { Node.blank .boolConstant with value := if value then 1 else 0 } }
  | stringConstant literal => { node := named .stringConstant literal }
  | reference name => { node := named .reference name }
  | target name => { node := named .target name }
  | element kind name index => { node := named kind name, first := .given [index] }
  | binary op left right =>
    { node := { Node.blank .operation with operator := some op }
      first := .given [left], second := .given [right] }
  | unary op operand =>
    { node := { Node.blank .operation with operator := some op }, first := .given [operand] }
  | call name arguments =>
    { node := named .call name
      first := .made (arguments.map fun id => { Node.blank .argument with first := some id }) }
  | assignment left right =>
    { node := Node.blank .assignment, first := .given [left], second := .given [right] }
  | returnValue value => { node := Node.blank .returnValue, first := .given value.toList }
  | loop condition body =>
    { node := Node.blank .loop, first := .given [condition], second := .given [body] }
  | conditional condition yes no =>
    { node := Node.blank .conditional
      first := .made [{ Node.blank .thenBranch with first := some condition, second := some yes }]
      second := .made (no.toList.map fun id => { Node.blank .elseBranch with first := some id }) }
  | block locals statements =>
    { node := Node.blank .block, first := .given locals, second := .given statements }
  | scalar name ty => { node := typed .variableDecl name ty }
  | array name ty length =>
    { node := typed .variableDecl name ty
      first := .made [{ Node.blank .intConstant with value := length }] }
  | initialized name ty value =>
    { node := typed .variableDecl name ty, second := .given [value] }
  | parameter name ty => { node := typed .parameter name ty }
  | method name ty params body =>
    { node := typed .methodDecl name ty, first := .given params, second := .given [body] }
  | externDecl name ty params =>
    { node := typed .externDecl name ty
      first := .made (params.map fun ty => { Node.blank .externType with ty := some ty }) }
  | package name fields methods =>
    { node := named .package name, first := .given fields, second := .given methods }
  | program externs main =>
    { node := Node.blank .program, first := .given externs, second := .given [main] }

/-- The construct is given different nodes that are ready, and there are handles left for its new
ones. -/
structure Admissible (c : Construct) (t : Tree) : Prop where
  nodup : c.given.Nodup
  ready : ∀ id ∈ c.given, t.Ready id
  room : t.size + c.plan.count ≤ maxHandles

variable {c : Construct} {t : Tree}

theorem used_plan (c : Construct) : c.plan.used = c.given := by
  cases c <;> simp [plan, Plan.used, Part.used, given, Node.children, Node.blank, List.flatMap_map]

theorem proper_plan (c : Construct) : c.plan.Proper := by
  cases c <;> constructor <;>
    simp [plan, Part.Proper, Node.children, named, typed, Node.blank]

theorem run_named (h : t.size < maxHandles) (kind : NodeKind) (name : String) :
    (Build.named kind name).run t = (Build.add (named kind name)).run t := Build.run_make h kind _

theorem run_typed (h : t.size < maxHandles) (kind : NodeKind) (name : String) (ty : Ty) :
    (Build.typed kind name ty).run t = (Build.add (typed kind name ty)).run t := by
  rw [Build.typed, Build.run_bind_of_ok ((run_named h kind name).trans (Build.run_add h _)),
    Build.run_bind_of_ok (Build.run_update_alloc ..), Build.run_add h]
  rfl

/-- Appending a node and then going on with its handle is one of the two ways, if what comes behind
the node is. -/
theorem run_eq_before {p : Plan} {hang : Option NodeId → Option NodeId → Node → Node}
    {first : Build NodeId} {rest : NodeId → Build NodeId} (h : t.size < maxHandles)
    (hfirst : first.run t = (Build.add p.node).run t)
    (hrest : (rest ⟨t.size⟩).run (t.alloc p.node).2 = (do
      let a ← p.first.build
      let b ← p.second.build
      Build.update ⟨t.size⟩ (hang a b)
      return ⟨t.size⟩ : Build NodeId).run (t.alloc p.node).2) :
    (first >>= rest).run t = (p.before hang).run t := by
  have added := Build.run_add h p.node
  rw [Plan.before, Build.run_bind_of_ok (hfirst.trans added), hrest, Build.run_bind_of_ok added]

/-- Nodes that are appended bare and then written to fill a place, if they are linked. -/
theorem run_made {α : Type} (kind : NodeKind) (f : α → Node → Node) {l : List α}
    (h : t.size + l.length ≤ maxHandles) :
    ((l.mapM fun a => Build.make kind (f a)) >>= Build.link).run t =
      (Part.made (l.map fun a => f a (Node.blank kind))).build.run t :=
  Build.run_bind_congr (Build.run_mapM_make h) Build.link

/-- A node that is made by itself fills a place, if what comes behind it goes on in the same way. -/
theorem run_wrapper {α : Type} {next : NodeId → Build α} {rest : Option NodeId → Build α}
    (h : t.size < maxHandles) (kind : NodeKind) (f : Node → Node)
    (hrest : (next ⟨t.size⟩).run (t.alloc (f (Node.blank kind))).2 =
      (rest (some ⟨t.size⟩)).run (t.alloc (f (Node.blank kind))).2) :
    (Build.make kind f >>= next).run t =
      ((Part.made [f (Node.blank kind)]).build >>= rest).run t := by
  have added := Build.run_add h (f (Node.blank kind))
  have listed : ([f (Node.blank kind)].mapM Build.add).run t =
      .ok ([⟨t.size⟩], (t.alloc (f (Node.blank kind))).2) := by
    rw [List.mapM_cons, Build.run_bind_of_ok added]
    rfl
  have filled : (Part.made [f (Node.blank kind)]).build.run t =
      .ok (some ⟨t.size⟩, (t.alloc (f (Node.blank kind))).2) := by
    show (_ >>= Build.link).run t = _
    rw [Build.run_bind_of_ok listed]
    rfl
  rw [Build.run_bind_of_ok ((Build.run_make h kind f).trans added), Build.run_bind_of_ok filled,
    hrest]

/-- The branches of a conditional come before it. -/
theorem run_conditional {condition yes : NodeId} {no : Option NodeId}
    (hroom : t.size + (conditional condition yes no).plan.count ≤ maxHandles) :
    (Build.conditional condition yes no).run t =
      (conditional condition yes no).plan.after.run t := by
  cases no with
  | none =>
    have room : t.size + 1 < maxHandles := by
      simpa [plan, Plan.count, Part.count, Nat.succ_le_iff] using hroom
    refine run_wrapper (Nat.lt_of_succ_lt room) .thenBranch _ ?_
    exact Build.run_make (by rwa [Tree.size_alloc]) _ _
  | some body =>
    have room : t.size + 1 + 1 < maxHandles := by
      simpa [plan, Plan.count, Part.count, Nat.succ_le_iff] using hroom
    refine run_wrapper (by omega) .thenBranch _ ?_
    show ((Build.make .elseBranch _ >>= fun id => pure (some id)) >>= _).run _ = _
    rw [bind_assoc]
    refine run_wrapper (by rw [Tree.size_alloc]; omega) .elseBranch _ ?_
    exact Build.run_make (by rwa [Tree.size_alloc, Tree.size_alloc]) _ _

/-- Each construct is made in one of the two ways, as long as there are handles left. -/
theorem run_build (hroom : t.size + c.plan.count ≤ maxHandles) :
    c.build.run t = c.plan.after.run t ∨
    ∃ hang, (∀ a b, c.plan.first.Admits a → c.plan.second.Admits b →
      hang a b c.plan.node = c.plan.filled a b) ∧ c.build.run t = (c.plan.before hang).run t := by
  have h : t.size < maxHandles := by
    rw [Plan.count] at hroom
    omega
  cases c with
  | element kind name index =>
    exact .inr ⟨fun a _ n => { n with first := a }, fun _ _ _ hb => by cases hb; rfl,
      run_eq_before h (run_named h kind name) rfl⟩
  | array name ty length =>
    refine .inr ⟨fun a _ n => { n with first := a }, fun _ _ _ hb => by cases hb; rfl,
      run_eq_before h (run_typed h .variableDecl name ty) ?_⟩
    refine Build.run_bind_congr (Build.run_make ?_ _ _) _
    simpa [plan, Plan.count, Part.count, Nat.succ_le_iff] using hroom
  | call name arguments =>
    refine .inr ⟨fun a _ n => { n with first := a }, fun _ _ _ hb => by cases hb; rfl,
      run_eq_before h (run_named h .call name) ?_⟩
    have room : (t.alloc (named .call name)).2.size + arguments.length ≤ maxHandles := by
      simpa [plan, Plan.count, Part.count, Nat.add_assoc, Nat.add_comm] using hroom
    have wrappers := run_made .argument (fun id n => { n with first := some id }) room
    exact (congrArg (fun m : Build NodeId => m.run _) (bind_assoc ..).symm).trans
      (Build.run_bind_congr wrappers _)
  | externDecl name ty params =>
    refine .inr ⟨fun a _ n => { n with first := a }, fun _ _ _ hb => by cases hb; rfl,
      run_eq_before h (run_typed h .externDecl name ty) ?_⟩
    have room : (t.alloc (typed .externDecl name ty)).2.size + params.length ≤ maxHandles := by
      simpa [plan, Plan.count, Part.count, Nat.add_assoc, Nat.add_comm] using hroom
    have types := run_made .externType (fun ty n => { n with ty := some ty }) room
    exact (congrArg (fun m : Build NodeId => m.run _) (bind_assoc ..).symm).trans
      (Build.run_bind_congr types _)
  | initialized name ty value =>
    exact .inr ⟨fun _ b n => { n with second := b }, fun _ _ ha _ => by cases ha; rfl,
      run_eq_before h (run_typed h .variableDecl name ty) rfl⟩
  | block locals statements =>
    exact .inr ⟨fun a b n => { n with first := a, second := b }, fun _ _ _ _ => rfl, rfl⟩
  | method name ty params body =>
    exact .inr ⟨fun a b n => { n with first := a, second := b }, fun _ _ _ _ => rfl,
      run_eq_before h (run_typed h .methodDecl name ty) rfl⟩
  | package name fields methods =>
    exact .inr ⟨fun a b n => { n with first := a, second := b }, fun _ _ _ _ => rfl,
      run_eq_before h (run_named h .package name) rfl⟩
  | program externs main =>
    exact .inr ⟨fun a b n => { n with first := a, second := b }, fun _ _ _ _ => rfl, rfl⟩
  | conditional condition yes no => exact .inl (run_conditional hroom)
  | returnValue value => cases value <;> exact .inl (Build.run_make h _ _)
  | blank kind => exact .inl rfl
  | intConstant | boolConstant | binary | unary | assignment | loop =>
    exact .inl (Build.run_make h _ _)
  | stringConstant | reference | target => exact .inl (run_named h _ _)
  | scalar | parameter => exact .inl (run_typed h _ _ _)

/-- **Building one construct.** In a forest each construct can be built out of different nodes that
are ready; the tree is a forest still. -/
theorem build_ok (h : t.Forest) (hc : c.Admissible t) :
    ∃ id u, c.build.run t = .ok (id, u) ∧ c.plan.Outcome t u id := by
  have hd : c.plan.used.Nodup := by rw [used_plan]; exact hc.nodup
  have hready : ∀ id ∈ c.plan.used, t.Ready id := by rw [used_plan]; exact hc.ready
  rcases run_build hc.room with heq | ⟨hang, hhang, heq⟩
  · rw [heq]
    exact Plan.after_ok c.proper_plan h hd hready hc.room
  · rw [heq]
    exact Plan.before_ok hhang c.proper_plan h hd hready hc.room

end Construct

/-- The tree has come out of the empty one, construct by construct, each of them given different
nodes that were ready. -/
inductive Tree.Built : Tree → Prop
  | empty : Built .empty
  | build {t u : Tree} {c : Construct} {id : NodeId} (ht : t.Built) (hc : c.Admissible t)
      (hu : c.build.run t = .ok (id, u)) : Built u

/-- What has been built is a forest. -/
theorem Tree.Built.forest {t : Tree} (h : t.Built) : t.Forest := by
  induction h with
  | empty => exact forest_empty
  | build _ hc hu ih =>
    obtain ⟨id, u, hrun, houtcome⟩ := Construct.build_ok ih hc
    rw [hu] at hrun
    cases hrun
    exact houtcome.grown.forest

end DecafStatics
