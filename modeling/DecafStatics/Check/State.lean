import DecafStatics.SymbolTable.Basic
import DecafStatics.Tree.Chain

/-!
# The state of a check

Checking walks over a tree once, in the order of the source. On its way it fills the symbol
table, writes what it finds out about a node into that node, and collects diagnostics. It never
stops at a diagnostic; only a fault ends it.

Besides the tree and the table the walk carries where it is: how many scopes are open, how many
loops, which method is being checked, and how the words of storage of the current activation
record are taken up.

## Main definitions

* `Checker`, `Check` — the state, and computations on it
* `Check.report` — collecting a diagnostic
* `Check.eachSibling` — walking along a chain

## Main results

The lemmas `Check.run_…` say what each of the operations does to the state, so that the rules of
the later modules need not look inside of them.
-/

namespace DecafStatics

/-- How the words of an activation record are taken up. -/
structure Frame where
  /-- The first word that is free. -/
  offset : Nat
  /-- The largest value that `offset` has had. -/
  peak : Nat
  deriving DecidableEq

/-- The words at the start of each activation record of a method: the return address and the
saved stack pointer. Parameters come after them. -/
def frameHeaderWords : Nat := 2

/-- A frame of which the first `words` are taken up. -/
def Frame.starting (words : Nat) : Frame := ⟨words, words⟩

/-- The method that is being checked. -/
structure Enclosing where
  name : String
  /-- The type that it returns. -/
  ty : Ty
  deriving DecidableEq

/-- The state of a check. -/
structure Checker where
  tree : Tree
  table : SymbolTable
  /-- What was found, the oldest first. -/
  diagnostics : Array Diagnostic
  /-- How many scopes are open around the current place. -/
  level : Nat
  frame : Frame
  /-- How many loops there are around the current place. -/
  loopDepth : Nat
  method : Option Enclosing
  deriving DecidableEq

/-- The start of a check of `tree`, in the global scope, with the symbols of `table` known. -/
def Checker.start (tree : Tree) (table : SymbolTable) : Checker where
  tree := tree
  table := table
  diagnostics := #[]
  level := 0
  frame := .starting 0
  loopDepth := 0
  method := none

/-- Computations that take part in a check. -/
abbrev Check := StateT Checker (Except Fault)

namespace Check

/-- The node that `id` names. -/
def node (id : NodeId) : Check Node := do (← get).tree.node id

/-- Overwrites the node that `id` names. -/
def update (id : NodeId) (f : Node → Node) : Check Unit := do
  let s ← get
  set { s with tree := ← s.tree.update id f }

/-- Collects a diagnostic. -/
def add (d : Diagnostic) : Check Unit :=
  modify fun s => { s with diagnostics := s.diagnostics.push d }

/-- Collects a problem and blames the node that `id` names. -/
def report (problem : Problem) (id : NodeId) : Check Unit := do
  add ⟨problem, (← node id).position⟩

/-- Visits the nodes from `head` on, one after the other. A check changes no chain, so the chain
can be read before its nodes are visited; what it runs into is met after them. -/
def eachSibling (head : Option NodeId) (visit : NodeId → Check Unit) : Check Unit := do
  let chain := (← get).tree.chain head
  chain.ids.forM visit
  chain.ending

/-- Takes up `words` words of the current frame. -/
def allocate (words : Nat) : Check Unit := do
  let s ← get
  let offset := s.frame.offset + words
  if offset < wordLimit then
    set { s with frame := ⟨offset, max s.frame.peak offset⟩ }
  else
    throw .sizeOverflow

/-- Opens a scope inside of the current one. -/
def openScope : Check Unit := modify fun s => { s with level := s.level + 1 }

/-- Closes the current scope and gives the words of storage that its symbols held. -/
def closeScope : Check Nat := do
  let s ← get
  let (reclaimed, table) ← s.table.closeScopes s.level
  set { s with table := table, level := s.level - 1 }
  return reclaimed

/-! ### What the operations do -/

@[simp] theorem run_node (id : NodeId) (s : Checker) :
    (node id).run s = (s.tree.node id).map fun n => (n, s) := by
  cases h : s.tree.node id <;> simp [node, h] <;> rfl

@[simp] theorem run_update (id : NodeId) (f : Node → Node) (s : Checker) :
    (update id f).run s = (s.tree.update id f).map fun t => ((), { s with tree := t }) := by
  cases h : s.tree.update id f <;> simp [update, h] <;> rfl

@[simp] theorem run_add (d : Diagnostic) (s : Checker) :
    (add d).run s = .ok ((), { s with diagnostics := s.diagnostics.push d }) := rfl

@[simp] theorem run_report (problem : Problem) (id : NodeId) (s : Checker) :
    (report problem id).run s = (s.tree.node id).map fun n =>
      ((), { s with diagnostics := s.diagnostics.push ⟨problem, n.position⟩ }) := by
  cases h : s.tree.node id <;> simp [report, h, Except.map] <;> rfl

@[simp] theorem run_openScope (s : Checker) :
    openScope.run s = .ok ((), { s with level := s.level + 1 }) := rfl

theorem run_allocate {words : Nat} {s : Checker} (h : s.frame.offset + words < wordLimit) :
    (allocate words).run s = .ok ((), { s with
      frame := ⟨s.frame.offset + words, max s.frame.peak (s.frame.offset + words)⟩ }) := by
  simp [allocate, h]
  rfl

@[simp] theorem run_closeScope (s : Checker) :
    closeScope.run s = (s.table.closeScopes s.level).map fun r =>
      (r.1, { s with table := r.2, level := s.level - 1 }) := by
  cases h : s.table.closeScopes s.level <;> simp [closeScope, h] <;> rfl

@[simp] theorem eachSibling_none (visit : NodeId → Check Unit) :
    eachSibling none visit = pure () := rfl

end Check

end DecafStatics
