/-!
# Source positions

Nodes carry the place they were read from, and diagnostics show it. A node that no parser has
placed carries `Position.null`.
-/

namespace DecafStatics

/-- A line of a source file. -/
structure Position where
  line : Nat
  file : String
  deriving DecidableEq

namespace Position

/-- The position of a node that was never placed. -/
def null : Position := ⟨0, "<null>"⟩

instance : Inhabited Position := ⟨null⟩

/-- The file, a colon and the line. -/
def display (p : Position) : String := s!"{p.file}:{p.line}"

end Position

end DecafStatics
