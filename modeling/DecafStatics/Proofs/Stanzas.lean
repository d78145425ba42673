import DecafStatics.Proofs.Depth
import DecafStatics.Proofs.Script

/-!
# The script of a dump

A dump follows a script that depends on the tree alone, and neither on the level nor on how far the
dump is followed, provided that it is followed far enough. This is so for any tree in which a dump
comes to an end: any kind of node may stand in any place, and children may be missing or shared.

Where there is no program, package or extern method in the tree, and no line break in a name, the
script consists of lines. Those three kinds of nodes are different: a program has an indentation
without a line, and a package and an extern method have lines without an indentation.

## Main definitions

* `Tree.Reaches` — being part of the tree from a node on
* `Tree.Sound` — trees whose dump comes to an end
* `Node.Lined` — nodes that are shown by lines

## Main results

* `Tree.follows_stanza` — what is written about one node
* `Tree.exists_script` — the script of a dump
-/

namespace DecafStatics

open Relation Writer

/-- The node is shown by lines: it is not of one of the three kinds that are not, and there is no
line break in its name. -/
def Node.Lined (n : Node) : Prop :=
  n.kind ≠ .program ∧ n.kind ≠ .package ∧ n.kind ≠ .externDecl ∧ Unbroken n.text

instance (n : Node) : Decidable n.Lined := by
  unfold Node.Lined
  infer_instance

namespace Tree

/-- The node is among the nodes from `head` on or somewhere below them. -/
def Reaches (t : Tree) (head : Option NodeId) (id : NodeId) : Prop :=
  ∃ top ∈ head, ReflTransGen t.Above top id

/-- Every handle that is met from `head` on names a node, and no node that is met lies below
itself. -/
def Sound (t : Tree) (head : Option NodeId) : Prop :=
  ∀ id, t.Reaches head id → id.index < t.size ∧ ¬ TransGen t.Above id id

/-- Every node that is met from `head` on is shown by lines. -/
def Lined (t : Tree) (head : Option NodeId) : Prop :=
  ∀ id n, t.Reaches head id → t.node id = .ok n → n.Lined

variable {t : Tree} {head : Option NodeId} {id : NodeId} {n : Node} {P : Prop} {b : Nat}

theorem reaches_self (h : id ∈ head) : t.Reaches head id := ⟨id, h, .refl⟩

/-- What is met from a child or a sibling of a node on is met from the node on. -/
theorem Reaches.of_edge {other : NodeId} (hn : t.node id = .ok n) (edge : Edge)
    (h : t.Reaches (n.edge edge) other) : t.Reaches (some id) other := by
  obtain ⟨child, hchild, hbelow⟩ := h
  exact ⟨id, rfl, .head ⟨edge, owns_of_node hn hchild⟩ hbelow⟩

/-- A tree is sound if all of its edges lead to nodes of it and none of them leads back. -/
theorem Sound.of_closed (hc : t.Closed) (ha : t.Acyclic) (hhead : ∀ id ∈ head, id.index < t.size) :
    t.Sound head := by
  rintro id ⟨top, htop, hbelow⟩
  refine ⟨?_, ha id⟩
  cases hbelow with
  | refl => exact hhead _ htop
  | tail _ hedge =>
    obtain ⟨edge, howns⟩ := hedge
    exact hc _ edge id howns

theorem Lined.of_forall (h : ∀ n ∈ t.nodes, n.Lined) : t.Lined head :=
  fun _ n _ hn => h n (Array.mem_of_getElem? (node_eq_ok_iff.1 hn))

theorem Sound.exists_node (h : t.Sound head) (hid : id ∈ head) : ∃ n, t.node id = .ok n :=
  node_ok_of_lt (h id (reaches_self hid)).1

theorem Sound.of_edge (h : t.Sound (some id)) (hn : t.node id = .ok n) (edge : Edge) :
    t.Sound (n.edge edge) :=
  fun other hother => h other (hother.of_edge hn edge)

theorem Lined.of_edge (h : t.Lined (some id)) (hn : t.node id = .ok n) (edge : Edge) :
    t.Lined (n.edge edge) :=
  fun other m hother => h other m (hother.of_edge hn edge)

theorem Sound.within (h : t.Sound head) (hid : id ∈ head) : t.Within (t.size + 1) id :=
  within_of_forall fun other hother => (h other ⟨id, hid, hother⟩).2

/-! ### Stanzas -/

section Stanza

variable {ι : Type} {children : ι → Nat → Option NodeId → Writer Unit}

/-- What is needed of a child: its dump follows a script, and so do the dumps of its own children,
since some nodes are shown without the nodes that wrap them. -/
structure Serves (t : Tree) (P : Prop) (b : Nat) (children : ι → Nat → Option NodeId → Writer Unit)
    (head : Option NodeId) : Prop where
  follows : Follows P b fun i level => children i level head
  inside : ∀ id ∈ head, ∃ n, t.node id = .ok n ∧
    (Follows P b fun i level => children i level n.first) ∧
    Follows P b fun i level => children i level n.second

theorem Serves.under {head : Option NodeId} (h : t.Serves P b children head) {k : Nat}
    (hk : k ≤ 3) : Follows P (b + 3) fun i level => children i (level + k) head :=
  h.follows.below (Nat.add_le_add_left hk b)

theorem follows_variable (hn : P → Unbroken n.text) (first : t.Serves P b children n.first)
    (second : t.Serves P b children n.second) :
    Follows P (b + 3) fun (_ : ι) level => t.writeVariable level n := by
  have head : P → Unbroken s!"Variable {n.text}" := fun hP =>
    unbroken_append.2 ⟨by decide, hn hP⟩
  have type : P → Unbroken s!" with type {typeLabel n.ty}" := fun _ =>
    unbroken_append.2 ⟨by decide, unbroken_typeLabel n.ty⟩
  have length : ∀ m : Node, P → Unbroken s!"[{m.value.toInt}]" := by
    intro m _
    refine unbroken_append.2 ⟨unbroken_append.2 ⟨?_, unbroken_toString _⟩, ?_⟩ <;> decide
  have truth : ∀ m : Node, P → Unbroken s!" = {truthLabel m.value}" := fun m _ =>
    unbroken_append.2 ⟨by decide, unbroken_truthLabel _⟩
  have number : ∀ m : Node, P → Unbroken s!" = {m.value.toInt}" := fun m _ =>
    unbroken_append.2 ⟨by decide, unbroken_toString _⟩
  have ending : Finishes P fun (_ : ι) _ => write "\n" := finishes_end "" rfl fun _ => by decide
  have initial : ∀ id, n.second = some id → Finishes P fun (_ : ι) _ => (do
      let init ← Writer.read (t.node id)
      if n.ty = some .bool then
        Writer.write s!" = {truthLabel init.value}"
        Writer.write "\n"
      else
        Writer.write s!" = {init.value.toInt}"
        Writer.write "\n") := by
    intro id hsecond
    obtain ⟨m, hm, -⟩ := second.inside id hsecond
    refine .read hm ?_
    split
    · exact ending.bind (truth m)
    · exact ending.bind (number m)
  unfold writeVariable
  refine Finishes.line (Nat.zero_le _) head ?_
  cases hfirst : n.first with
  | none =>
    cases hsecond : n.second with
    | none => exact ending.bind type
    | some id => exact (initial id hsecond).bind type
  | some id =>
    obtain ⟨m, hm, -⟩ := first.inside id hfirst
    refine .read hm (Finishes.bind (length m) ?_)
    cases hsecond : n.second with
    | none => exact ending.bind type
    | some id => exact (initial id hsecond).bind type

/-- Both branches of a conditional are served without the nodes that wrap them. -/
theorem follows_branches (first : t.Serves P b children n.first)
    (second : t.Serves P b children n.second) :
    Follows P (b + 3) fun i level => t.writeBranches (children i) level n := by
  have other : ∀ id, n.second = some id → Follows P (b + 3) fun i level => (do
      writeLine (level + 2) "ELSE STATEMENT"
      let branch ← Writer.read (t.node id)
      children i (level + 3) branch.first) := by
    intro id hsecond
    obtain ⟨m, hm, statement, -⟩ := second.inside id hsecond
    refine (follows_writeLine (by omega) fun _ => by decide).bind ?_
    exact .read hm (statement.below (Nat.le_refl _))
  unfold writeBranches
  cases hfirst : n.first with
  | none =>
    cases hsecond : n.second with
    | none => exact follows_pure
    | some id => exact other id hsecond
  | some id =>
    obtain ⟨m, hm, condition, statement⟩ := first.inside id hfirst
    refine .read hm ((condition.below (by omega)).bind ((statement.below (Nat.le_refl _)).bind ?_))
    cases hsecond : n.second with
    | none => exact follows_pure
    | some id => exact other id hsecond

/-- A method without parameters ends its heading with a word more, and has no list of them. -/
theorem follows_method (hkind : n.kind = .methodDecl) (hn : P → Unbroken n.text)
    (first : t.Serves P b children n.first) (second : t.Serves P b children n.second) :
    Follows P (b + 3) fun i level => t.stanza (children i) level n := by
  have label : P → Unbroken s!"METHOD FUNCTION {n.text} {typeLabel n.ty}" := fun hP =>
    unbroken_append.2 ⟨unbroken_append.2 ⟨unbroken_append.2 ⟨by decide, hn hP⟩, by decide⟩,
      unbroken_typeLabel n.ty⟩
  have heading : ∀ rest content : String, rest = content ++ "\n" → Unbroken content →
      Follows P (b + 3) fun (_ : ι) level =>
        writeAt level s!"METHOD FUNCTION {n.text} {typeLabel n.ty}" >>= fun _ => write rest :=
    fun rest content hrest hcontent =>
      Finishes.line (Nat.zero_le _) label (finishes_end content hrest fun _ => hcontent)
  have bracket : ∀ text, Unbroken text →
      Follows P (b + 3) fun (_ : ι) level => writeLine (level + 2) text :=
    fun text htext => follows_writeLine (by omega) fun _ => htext
  have body := second.under (by omega : 2 ≤ 3)
  have parameters := first.under (by omega : 2 ≤ 3)
  cases hfirst : n.first with
  | none =>
    simp only [stanza, hkind, hfirst, Option.isNone_none, if_true, ← bind_assoc]
    exact (heading " (VOID)\n" " (VOID)" rfl (by decide)).bind body
  | some id =>
    rw [hfirst] at parameters
    simp only [stanza, hkind, hfirst, Option.isNone_some, Bool.false_eq_true, if_false,
      ← bind_assoc]
    exact ((((heading "\n" "" rfl (by decide)).bind (bracket "(" (by decide))).bind
      parameters).bind (bracket ")" (by decide))).bind body

/-- **What is written about one node** follows a script. -/
theorem follows_stanza (hn : P → n.Lined) (first : t.Serves P b children n.first)
    (second : t.Serves P b children n.second) :
    Follows P (b + 3) fun i level => t.stanza (children i) level n := by
  have text : ∀ label : String, Unbroken label → P → Unbroken (label ++ n.text) :=
    fun label hlabel hP => unbroken_append.2 ⟨hlabel, (hn hP).2.2.2⟩
  have line : ∀ heading : String, (P → Unbroken heading) →
      Follows P (b + 3) fun (_ : ι) level => writeLine level heading :=
    fun heading => follows_writeLine (Nat.zero_le _)
  have lineAt : ∀ (k : Nat) (heading : String), k ≤ 3 → Unbroken heading →
      Follows P (b + 3) fun (_ : ι) level => writeLine (level + k) heading :=
    fun k heading hk hheading => follows_writeLine (by omega) fun _ => hheading
  cases hkind : n.kind
  case methodDecl => exact follows_method hkind (fun hP => (hn hP).2.2.2) first second
  all_goals simp only [stanza, hkind]
  case program =>
    have ragged : ¬ P := fun hP => (hn hP).1 hkind
    exact (follows_writeAt ragged "").bind ((first.under (Nat.zero_le 3)).bind
      (second.under (Nat.zero_le 3)))
  case package =>
    have ragged : ¬ P := fun hP => (hn hP).2.1 hkind
    exact (line _ fun hP => (ragged hP).elim).bind ((first.under (Nat.zero_le 3)).bind
      ((follows_write ragged "\n").bind (second.under (Nat.zero_le 3))))
  case externDecl =>
    have ragged : ¬ P := fun hP => (hn hP).2.2.1 hkind
    exact (line _ fun hP => (ragged hP).elim).bind ((first.under (by omega : 1 ≤ 3)).bind
      (follows_write ragged _))
  case externType =>
    exact line _ fun _ => unbroken_append.2 ⟨by decide, unbroken_typeLabel n.ty⟩
  case parameter =>
    refine line _ fun hP => unbroken_append.2 ⟨?_, (hn hP).2.2.2⟩
    exact unbroken_append.2 ⟨unbroken_append.2 ⟨by decide, unbroken_typeLabel n.ty⟩, by decide⟩
  case variableDecl => exact follows_variable (fun hP => (hn hP).2.2.2) first second
  case block =>
    exact (line _ fun _ => by decide).bind ((first.under (Nat.zero_le 3)).bind
      (second.under (Nat.zero_le 3)))
  case assignment =>
    exact (line _ fun _ => by decide).bind ((first.under (Nat.zero_le 3)).bind
      (second.under (by omega : 2 ≤ 3)))
  case call =>
    exact (line _ (text _ (by decide))).bind ((lineAt 1 "(" (by omega) (by decide)).bind
      ((first.under (by omega : 2 ≤ 3)).bind (lineAt 1 ")" (by omega) (by decide))))
  case argument => exact (line _ fun _ => by decide).bind (first.under (Nat.zero_le 3))
  case conditional => exact (line _ fun _ => by decide).bind (follows_branches first second)
  case thenBranch =>
    exact (line _ fun _ => by decide).bind ((first.under (by omega : 1 ≤ 3)).bind
      (second.under (by omega : 1 ≤ 3)))
  case elseBranch => exact (line _ fun _ => by decide).bind (first.under (by omega : 1 ≤ 3))
  case loop =>
    exact (line _ fun _ => by decide).bind ((first.under (by omega : 1 ≤ 3)).bind
      (second.under (by omega : 2 ≤ 3)))
  case returnValue => exact (line _ fun _ => by decide).bind (first.under (by omega : 1 ≤ 3))
  case breakLoop => exact line _ fun _ => by decide
  case continueLoop => exact line _ fun _ => by decide
  case operation =>
    have operands : Follows P (b + 3) fun i level => (do
        children i (level + 1) n.first
        if n.operator.any Operator.isUnary then pure () else children i (level + 1) n.second) := by
      refine (first.under (by omega : 1 ≤ 3)).bind ?_
      split
      · exact follows_pure
      · exact second.under (by omega : 1 ≤ 3)
    cases hop : n.operator with
    | none =>
      rw [hop] at operands
      exact (line _ fun _ => by decide).bind operands
    | some op =>
      rw [hop] at operands
      exact (line _ fun _ => unbroken_append.2 ⟨by decide, unbroken_symbol op⟩).bind operands
  case intConstant => exact line _ fun _ => unbroken_append.2 ⟨by decide, unbroken_toString _⟩
  case boolConstant => exact line _ fun _ => unbroken_append.2 ⟨by decide, unbroken_truthLabel _⟩
  case stringConstant => exact line _ (text _ (by decide))
  case target | reference =>
    refine (line _ (text _ (by decide))).bind ?_
    split
    · exact (line _ fun _ => by decide).bind ((first.under (by omega : 1 ≤ 3)).bind
        (line _ fun _ => by decide))
    · exact follows_pure

end Stanza

/-! ### Dumps -/

/-- How far a dump is followed: for so many siblings in each chain, so far down, and for so many of
the siblings that are left in the chain at hand. All of these are `least` at the least. -/
structure Effort (least : Nat) where
  bound : Nat
  depth : Nat
  left : Nat
  bound_le : least ≤ bound
  depth_le : least ≤ depth
  left_le : least ≤ left

namespace Effort

variable {least : Nat}

/-- What is left of it for the next sibling. -/
def sibling (e : Effort (least + 1)) : Effort least :=
  ⟨e.bound, e.depth, e.left - 1, Nat.le_of_succ_le e.bound_le, Nat.le_of_succ_le e.depth_le,
    Nat.le_sub_one_of_lt e.left_le⟩

/-- What is left of it for the children. -/
def child (e : Effort (least + 1)) : Effort least :=
  ⟨e.bound, e.depth - 1, e.bound, Nat.le_of_succ_le e.bound_le, Nat.le_sub_one_of_lt e.depth_le,
    Nat.le_of_succ_le e.bound_le⟩

end Effort

/-- The dump of the nodes from `head` on, followed so far. -/
def dumpAs (t : Tree) (head : Option NodeId) {least : Nat} (e : Effort least) (level : Nat) :
    Writer Unit :=
  t.writeChain (t.stanza (t.dumpWithin e.bound e.depth) level) e.left head

theorem dumpAs_none {least : Nat} (e : Effort least) (level : Nat) :
    t.dumpAs none e level = pure () := t.writeChain_none _ _

theorem dumpAs_some {least : Nat} (e : Effort (least + 1)) (level : Nat) (id : NodeId) :
    t.dumpAs (some id) e level = Writer.read (t.node id) >>= fun n =>
      t.stanza (fun level head => t.dumpAs head e.child level) level n >>= fun _ =>
        t.dumpAs n.next e.sibling level := by
  obtain ⟨bound, depth, left, bound_le, depth_le, left_le⟩ := e
  obtain ⟨depth, rfl⟩ : ∃ d, depth = d + 1 := ⟨depth - 1, by omega⟩
  obtain ⟨left, rfl⟩ : ∃ l, left = l + 1 := ⟨left - 1, by omega⟩
  rfl

/-- The dump of a chain follows a script if nothing in it is deeper than the dump is followed. -/
theorem follows_dumpAs {least : Nat} (hs : t.Sound head) (hl : P → t.Lined head)
    (hdeep : ∀ id ∈ head, t.Within least id) :
    Follows P (3 * least) fun (e : Effort least) level => t.dumpAs head e level := by
  induction least generalizing head with
  | zero =>
    cases head with
    | none => simpa only [dumpAs_none] using follows_pure
    | some id => exact (hdeep id rfl).elim
  | succ least ih =>
    cases head with
    | none => simpa only [dumpAs_none] using follows_pure
    | some id =>
      obtain ⟨n, hn⟩ := hs.exists_node rfl
      have inside : ∀ edge child, child ∈ n.edge edge → t.Within least child :=
        fun edge child hchild => hdeep id rfl edge child (owns_of_node hn hchild)
      have part : ∀ edge, Follows P (3 * least) fun (e : Effort least) level =>
          t.dumpAs (n.edge edge) e level :=
        fun edge => ih (hs.of_edge hn edge) (fun hP => (hl hP).of_edge hn edge) (inside edge)
      have serves : ∀ edge, t.Serves P (3 * least)
          (fun (e : Effort (least + 1)) level head => t.dumpAs head e.child level)
          (n.edge edge) := by
        refine fun edge => ⟨(part edge).reindex Effort.child, fun child hchild => ?_⟩
        have hs' := hs.of_edge hn edge
        have hl' : P → t.Lined (n.edge edge) := fun hP => (hl hP).of_edge hn edge
        obtain ⟨m, hm⟩ := hs'.exists_node hchild
        rw [hchild] at hs' hl'
        have below : ∀ edge', Follows P (3 * least) fun (e : Effort least) level =>
            t.dumpAs (m.edge edge') e level :=
          fun edge' => ih (hs'.of_edge hm edge') (fun hP => (hl' hP).of_edge hm edge')
            ((inside edge child hchild).edge hm edge')
        exact ⟨m, hm, (below .first).reindex Effort.child, (below .second).reindex Effort.child⟩
      have stanza := follows_stanza (fun hP => hl hP id n (reaches_self rfl) hn) (serves .first)
        (serves .second)
      have rest := ((part .next).reindex Effort.sibling).mono (Nat.le_add_right (3 * least) 3)
      simp only [dumpAs_some]
      exact .read hn (stanza.bind rest)

/-- **The script of a dump.** -/
theorem exists_script (h : t.Sound head) : ∃ script : Script,
    (∀ level, t.dump level head = script.write level) ∧
      (∀ p ∈ script, p.offset ≤ 3 * (t.size + 1)) ∧ (t.Lined head → script.Lined) := by
  obtain ⟨script, hscript, hoffset, hlined⟩ :=
    follows_dumpAs (P := t.Lined head) h id fun id hid => h.within hid
  refine ⟨script, fun level => funext fun sink => ?_, hoffset, hlined⟩
  -- How far the dump is followed depends on the room there is, but it is always far enough.
  obtain ⟨depth, hdepth, hle⟩ :
      ∃ depth, t.dumpBound sink.room = depth + 1 ∧ t.size + 1 ≤ depth := by
    refine ⟨t.dumpBound sink.room - 1, ?_⟩
    have enough : (t.size + 1) * 2 ≤ t.dumpBound sink.room :=
      Nat.mul_le_mul_left _ (Nat.le_add_left 2 _)
    omega
  let effort : Effort (t.size + 1) := ⟨depth + 1, depth, depth + 1, Nat.le_succ_of_le hle, hle,
    Nat.le_succ_of_le hle⟩
  rw [← hscript effort level]
  show t.dumpWithin (t.dumpBound sink.room) (t.dumpBound sink.room) level head sink = _
  rw [hdepth]
  rfl

end Tree

end DecafStatics
