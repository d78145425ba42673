/-!
# Handles

Tree nodes and symbols refer to each other by index. Two types keep the two index spaces apart:
a `NodeId` says nothing about the symbol table and a `SymbolId` nothing about the tree. Neither
promises that what it names exists; see `Fault` for what reading through a stale one does.

A handle is a word of 32 bits, so there are `maxHandles` of each sort. A tree that has more nodes
hands out its handles again, from the first one on (`Tree.alloc`). Symbols are numbered without a
bound instead; what is proved of them says for how many of them it holds, where that matters.
-/

namespace DecafStatics

/-- How many handles there are of each sort. -/
def maxHandles : Nat := 0x100000000

/-- The index of a node in its tree. -/
structure NodeId where
  index : Nat
  deriving DecidableEq

/-- The index of a symbol in its table, valid also after the symbol's scope is closed. -/
structure SymbolId where
  index : Nat
  deriving DecidableEq

/-- A node handle as text. -/
def NodeId.display (id : NodeId) : String := s!"NodeId({id.index})"

/-- A symbol handle as text. -/
def SymbolId.display (id : SymbolId) : String := s!"SymbolId({id.index})"

end DecafStatics
