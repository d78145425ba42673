import DecafStatics.Handle
import DecafStatics.Ty

/-!
# Symbols

A symbol is one declared name at one level of nesting, together with what the name denotes and
where its storage lies in the activation record.
-/

namespace DecafStatics

/-- What sort of thing a name denotes. -/
inductive SymbolKind where
  | scalar
  | externMethod
  | method
  | array
  | package
  deriving DecidableEq

namespace SymbolKind

/-- The column text of a table listing. -/
def label : SymbolKind → String
  | scalar => "Scalar"
  | externMethod => "Extern Method"
  | method => "Method"
  | array => "Array"
  | package => "Package"

/-- The single word that messages use. -/
def tag : SymbolKind → String
  | scalar => "Scalar"
  | externMethod => "ExternMethod"
  | method => "Method"
  | array => "Array"
  | package => "Package"

/-- The kind with its article, for use inside a sentence. -/
def phrase : SymbolKind → String
  | scalar => "a scalar"
  | externMethod => "an extern method"
  | method => "a method"
  | array => "an array"
  | package => "a package"

/-- Methods and extern methods can be called. -/
def isCallable : SymbolKind → Bool
  | method | externMethod => true
  | scalar | array | package => false

end SymbolKind

/-- One declared name at one level. -/
structure Symbol where
  name : String
  ty : Ty
  kind : SymbolKind
  /-- How deep the scope of the declaration is nested; `0` is global. -/
  level : Nat
  /-- Words of storage. -/
  size : Nat
  /-- The first word of its storage in the activation record. -/
  offset : Nat
  /-- The head of the chain of formal parameters, for what can be called. -/
  params : Option NodeId
  deriving DecidableEq

end DecafStatics
