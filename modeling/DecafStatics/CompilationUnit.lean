import DecafStatics.Check.Statement
import DecafStatics.Tree.Dump

/-!
# Compilation units

What the phases of a compilation share: the tree, the symbol table and the root of the program.
A parser builds the tree and hands over the root, once; then the program can be checked and
dumped. Checking leaves its findings in the tree and the table, so a second check starts from
what the first one has left.
-/

namespace DecafStatics

/-- A program on its way through the phases. -/
structure CompilationUnit where
  tree : Tree
  table : SymbolTable
  root : Option NodeId
  deriving DecidableEq

namespace CompilationUnit

/-- A unit before parsing. -/
def empty : CompilationUnit := ⟨.empty, .empty, none⟩

instance : Inhabited CompilationUnit := ⟨empty⟩

/-- Hands over the root of the program. Only the first root is accepted; a later one is blamed
for the attempt. -/
def setRoot (u : CompilationUnit) (root : NodeId) :
    Except Fault (Except Diagnostic CompilationUnit) :=
  match u.root with
  | none => .ok (.ok { u with root := some root })
  | some _ => (u.tree.node root).map fun n => .error ⟨.rootAlreadySet, n.position⟩

/-- Runs a check on the tree and the table, and gives the result of the check together with the
diagnostics. -/
def runCheck {α : Type} (u : CompilationUnit) (check : Check α) :
    Except Fault (α × List Diagnostic × CompilationUnit) := do
  let (a, s) ← check.run (.start u.tree u.table)
  return (a, s.diagnostics.toList, { u with tree := s.tree, table := s.table })

/-- Checks the program, if there is one. -/
def check (u : CompilationUnit) : Except Fault (List Diagnostic × CompilationUnit) := do
  let (_, found) ← u.runCheck (Check.statements u.root)
  return found

/-- Writes the dump of the program. -/
def dump (u : CompilationUnit) : Writer Unit := u.tree.dump 0 u.root

/-- The dump of the program as a text. -/
def dumpText (u : CompilationUnit) : Except Fault String := u.tree.dumpText u.root

end CompilationUnit

end DecafStatics
