import DecafStatics.Proofs.Annotation
import DecafStatics.Proofs.Run

/-!
# What a check leaves behind

A check leaves three things behind: marks on the nodes of the tree, symbols in the table, and
diagnostics. `Event` is one of these things, and `Checker.play` a state with a list of them
added. A statement about the outcome of a check is then a statement about a list, and
taking a check apart at its binds is taking the list apart at its appends.

## Implementation notes

Where the check is at, its level, its frame, the symbols in sight, is not left behind, and playing
a list of events does not touch it.

The marks on a node are those of the events about it, in their order, so that the last one of a
kind is the one that is found in the end.

## Main definitions

* `Event` — a mark, a symbol or a diagnostic
* `Event.declared`, `Event.complaints` — the events of one kind
* `Tree.annotate`, `Checker.play` — a tree and a state with events added

## Main results

* `Checker.play_append` — playing two lists is playing one after the other
* `Node.marked_of_not_mem` — a node without events is as it was
-/

namespace DecafStatics

/-- One thing that a check leaves behind. -/
inductive Event where
  /-- The type that was found for an expression. -/
  | type (id : NodeId) (ty : Ty)
  /-- The symbol that a name was found to denote. -/
  | link (id : NodeId) (symbol : SymbolId)
  /-- Words of storage that were laid out. -/
  | size (id : NodeId) (words : Nat)
  /-- A symbol that is new, with the node that declares it. -/
  | declare (id : NodeId) (number : SymbolId) (symbol : Symbol)
  /-- A problem, and the node that is blamed for it. -/
  | complain (problem : Problem) (id : NodeId)

namespace Event

/-- The node that the event is about. -/
def node : Event → NodeId
  | type id _ | link id _ | size id _ | declare id .. | complain _ id => id

/-- The mark that the event leaves on its node. -/
def mark : Event → Node → Node
  | type _ ty, n => { n with ty := some ty }
  | link _ symbol, n => { n with symbol := some symbol }
  | size _ words, n => { n with size := words }
  | declare _ number _, n => { n with symbol := some number }
  | complain .., n => n

/-- The symbol that the event enters. -/
def symbol? : Event → Option Symbol
  | declare _ _ symbol => some symbol
  | type .. | link .. | size .. | complain .. => none

/-- The link that the event leaves on its node. -/
def link? : Event → Option (NodeId × SymbolId)
  | link id symbol => some (id, symbol)
  | declare id number _ => some (id, number)
  | type .. | size .. | complain .. => none

/-- The problem that the event collects, with the node that is blamed for it. -/
def complaint? : Event → Option (Problem × NodeId)
  | complain problem id => some (problem, id)
  | type .. | link .. | size .. | declare .. => none

/-- The symbols that are entered, in their order. -/
def declared (es : List Event) : List Symbol := es.filterMap symbol?

/-- The problems that are collected, in their order. -/
def complaints (es : List Event) : List (Problem × NodeId) := es.filterMap complaint?

@[simp] theorem declared_nil : declared [] = [] := rfl

@[simp] theorem complaints_nil : complaints [] = [] := rfl

@[simp] theorem declared_cons (e : Event) (es : List Event) :
    declared (e :: es) = e.symbol?.toList ++ declared es := by
  cases h : e.symbol? <;> simp [declared, h]

@[simp] theorem complaints_cons (e : Event) (es : List Event) :
    complaints (e :: es) = e.complaint?.toList ++ complaints es := by
  cases h : e.complaint? <;> simp [complaints, h]

@[simp] theorem declared_append (es fs : List Event) :
    declared (es ++ fs) = declared es ++ declared fs := List.filterMap_append

@[simp] theorem complaints_append (es fs : List Event) :
    complaints (es ++ fs) = complaints es ++ complaints fs := List.filterMap_append

end Event

/-! ### Marks on nodes -/

namespace Node

/-- The node `id` with the marks of the events about it. -/
def marked (n : Node) (id : NodeId) (es : List Event) : Node :=
  (es.filter fun e => e.node = id).foldl (fun n e => e.mark n) n

variable {n : Node} {id : NodeId} {es : List Event}

@[simp] theorem marked_nil (n : Node) (id : NodeId) : n.marked id [] = n := rfl

theorem marked_append (n : Node) (id : NodeId) (es fs : List Event) :
    n.marked id (es ++ fs) = (n.marked id es).marked id fs := by
  rw [marked, marked, marked, List.filter_append, List.foldl_append]

theorem marked_self (n : Node) (e : Event) : n.marked e.node [e] = e.mark n := by
  simp [marked]

/-- A node without events is as it was. -/
theorem marked_of_not_mem (h : ∀ e ∈ es, e.node ≠ id) : n.marked id es = n := by
  have none_left : (es.filter fun e => e.node = id) = [] := by
    rw [List.filter_eq_nil_iff]
    intro e he
    simpa using h e he
  rw [marked, none_left]
  rfl

/-- A field of a node that some of the marks write is what was written last, if anything was. -/
theorem read_marked {α : Type} {read : Node → α} {write? : Event → Option (NodeId × α)}
    (hnode : ∀ e x, write? e = some x → x.1 = e.node)
    (hmark : ∀ e n, read (e.mark n) = ((write? e).map Prod.snd).getD (read n)) (n : Node)
    (id : NodeId) (es : List Event) : read (n.marked id es) =
      (((es.filterMap write?).filter fun x => x.1 = id).getLast?.map Prod.snd).getD (read n) := by
  induction es generalizing n with
  | nil => rfl
  | cons e es ih =>
    have first : read (n.marked id [e]) =
        ((([e].filterMap write?).filter fun x => x.1 = id).getLast?.map Prod.snd).getD
          (read n) := by
      by_cases heq : e.node = id
      · rw [← heq, marked_self, hmark]
        cases hw : write? e with
        | none => simp [hw]
        | some x => simp [hw, hnode e x hw]
      · rw [marked_of_not_mem (by simpa using heq)]
        cases hw : write? e with
        | none => simp [hw]
        | some x => simp [hw, hnode e x hw, heq]
    rw [← List.singleton_append, marked_append, ih, first, List.filterMap_append,
      List.filter_append, List.getLast?_append]
    cases ((es.filterMap write?).filter fun x => x.1 = id).getLast? <;> rfl

/-- A mark of any kind leaves the place in the source alone. -/
theorem position_marked (n : Node) (id : NodeId) (es : List Event) :
    (n.marked id es).position = n.position := by
  rw [marked]
  induction es.filter fun e => e.node = id generalizing n with
  | nil => rfl
  | cons e es ih =>
    rw [List.foldl_cons, ih]
    cases e <;> rfl

end Node

namespace Tree

variable {t : Tree} {id : NodeId}

/-- The tree with the marks that events leave on its nodes. -/
def annotate (t : Tree) (es : List Event) : Tree :=
  ⟨t.nodes.mapIdx fun i n => n.marked ⟨i⟩ es⟩

/-- Where the node `id` stands in the source. -/
def position (t : Tree) (id : NodeId) : Position :=
  t.nodes[id.index]?.elim .null Node.position

@[simp] theorem annotate_nil (t : Tree) : t.annotate [] = t := by
  simp [annotate, Array.mapIdx_eq_zipIdx_map]

theorem annotate_append (t : Tree) (es fs : List Event) :
    t.annotate (es ++ fs) = (t.annotate es).annotate fs := by
  simp [annotate, Node.marked_append, Function.comp_def]

@[simp] theorem size_annotate (t : Tree) (es : List Event) : (t.annotate es).size = t.size := by
  simp [annotate, size]

theorem node_annotate {n : Node} (es : List Event) (h : t.node id = .ok n) :
    (t.annotate es).node id = .ok (n.marked id es) := by
  rw [node_eq_ok_iff] at h ⊢
  simp [annotate, h]

@[simp] theorem position_annotate (t : Tree) (es : List Event) (id : NodeId) :
    (t.annotate es).position id = t.position id := by
  cases h : t.nodes[id.index]? with
  | none => simp [position, annotate, h]
  | some n => simp [position, annotate, h, Node.position_marked]

theorem position_of_node {n : Node} (h : t.node id = .ok n) : t.position id = n.position := by
  simp [position, node_eq_ok_iff.1 h]

/-- A diagnostic leaves no mark. -/
theorem annotate_complain (t : Tree) (problem : Problem) (id : NodeId) :
    t.annotate [.complain problem id] = t := by
  have same : ∀ (i : Nat) (n : Node), n.marked ⟨i⟩ [.complain problem id] = n := by
    intro i n
    by_cases h : id = ⟨i⟩
    · rw [← h]
      exact n.marked_self (.complain problem id)
    · refine Node.marked_of_not_mem fun e he => ?_
      rw [List.mem_singleton.1 he]
      exact h
  simp [annotate, same, Array.mapIdx_eq_zipIdx_map]

/-- The marks of events do not depend on more than the mark of each. -/
theorem annotate_cons_congr {e e' : Event} (hnode : e.node = e'.node) (hmark : e.mark = e'.mark)
    (t : Tree) (es : List Event) : t.annotate (e :: es) = t.annotate (e' :: es) := by
  have same : ∀ (i : Nat) (n : Node), n.marked ⟨i⟩ (e :: es) = n.marked ⟨i⟩ (e' :: es) := by
    intro i n
    by_cases h : e'.node = ⟨i⟩
    · simp [Node.marked, hnode, h, hmark]
    · simp [Node.marked, hnode, h]
  simp [annotate, same]

/-- Overwriting a node is annotating it if what is written is the mark of an event. -/
theorem update_eq_annotate {f : Node → Node} {e : Event} (he : e.node = id)
    (hf : ∀ n, f n = e.mark n) (h : id.index < t.size) : t.update id f = .ok (t.annotate [e]) := by
  rw [update, if_pos h]
  refine congrArg (fun nodes => Except.ok (Tree.mk nodes)) (Array.ext (by simp) fun i hi _ => ?_)
  by_cases heq : id.index = i
  · have hid : e.node = ⟨i⟩ := by rw [he, ← heq]
    simp [Array.getElem_modify, heq, hf, ← hid, Node.marked_self]
  · have hid : e.node ≠ ⟨i⟩ := by
      rw [he]
      intro h
      exact heq (congrArg NodeId.index h)
    simp [Array.getElem_modify, heq, Node.marked, hid]

end Tree

/-! ### Events in a state -/

namespace Checker

/-- The state with the events added to what was left behind before. -/
def play (s : Checker) (es : List Event) : Checker :=
  { s with
    tree := s.tree.annotate es
    table := { s.table with store := s.table.store ++ (Event.declared es).toArray }
    diagnostics := s.diagnostics ++
      ((Event.complaints es).map fun c => ⟨c.1, s.tree.position c.2⟩).toArray }

variable {s : Checker} {es fs : List Event}

@[simp] theorem play_nil (s : Checker) : s.play [] = s := by
  simp [play]

/-- Playing two lists is playing one after the other. -/
theorem play_append (s : Checker) (es fs : List Event) :
    s.play (es ++ fs) = (s.play es).play fs := by
  simp [play, Tree.annotate_append]

@[simp] theorem tree_play (s : Checker) (es : List Event) :
    (s.play es).tree = s.tree.annotate es := rfl

@[simp] theorem store_play (s : Checker) (es : List Event) :
    (s.play es).table.store = s.table.store ++ (Event.declared es).toArray := rfl

/-- A symbol that was there before is found again. -/
theorem getElem?_store_play {i : Nat} {e : Symbol} (h : s.table.store[i]? = some e) :
    (s.play es).table.store[i]? = some e := by
  have hlt := (Array.getElem?_eq_some_iff.1 h).1
  rw [store_play, Array.getElem?_append_left hlt, h]

end Checker

namespace Check

variable {s : Checker} {id : NodeId}

/-- Writing the mark of an event to a node. -/
theorem run_update_eq_play {f : Node → Node} {e : Event} (he : e.node = id)
    (hf : ∀ n, f n = e.mark n) (hs : e.symbol? = none) (hc : e.complaint? = none)
    (h : id.index < s.tree.size) : (update id f).run s = .ok ((), s.play [e]) := by
  rw [run_update, Tree.update_eq_annotate he hf h]
  simp [Except.map, Checker.play, hs, hc]

/-- Collecting a diagnostic. -/
theorem run_report_eq_play (problem : Problem) (h : id.index < s.tree.size) :
    (report problem id).run s = .ok ((), s.play [.complain problem id]) := by
  obtain ⟨n, hn⟩ := Tree.node_ok_of_lt h
  rw [run_report, hn]
  simp [Except.map, Checker.play, Event.symbol?, Event.complaint?, Tree.annotate_complain,
    Tree.position_of_node hn]

end Check

end DecafStatics
