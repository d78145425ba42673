import DecafStatics.Sink
import DecafStatics.SymbolTable.Basic

/-!
# Listing a symbol table

The symbols in scope, the most recent first, one to a line under a header. Columns are set apart
by tabs, and the name by two of them.
-/

namespace DecafStatics

/-- The line of one symbol. -/
def Symbol.row (s : Symbol) : String :=
  s!"\t{s.name}\t\t{s.offset}\t{s.size}\t{s.level}\t{s.ty.label}\t{s.kind.label}\n"

namespace SymbolTable

/-- The line above the symbols. -/
def header : String := "\tLABEL\t\tOffset\tSIZE\tLEVEL\ttype\tsubtype\n"

/-- Writes the header and a line for each symbol in scope. -/
def write (table : SymbolTable) : Writer Unit := do
  Writer.write header
  table.entries.forM fun e => Writer.write e.2.row

/-- The listing as a text. -/
def listing (table : SymbolTable) : String :=
  table.entries.foldl (fun text e => text ++ e.2.row) header

private theorem forM_write_row (entries : List (SymbolId × Symbol)) {sink : Sink}
    (h : sink.room = none) :
    forM entries (fun e => Writer.write e.2.row) sink =
      .ok () { sink with text := entries.foldl (fun text e => text ++ e.2.row) sink.text } := by
  induction entries generalizing sink with
  | nil => rfl
  | cons e entries ih =>
    simp only [List.forM_cons, bind, EStateM.bind, Writer.write_unlimited h, List.foldl_cons]
    exact ih h

/-- Writing to a sink that takes everything gives the listing. -/
theorem toText_write (table : SymbolTable) : table.write.toText = .ok table.listing := by
  simp [write, Writer.toText, EStateM.run, bind, EStateM.bind, Writer.write_unlimited,
    Sink.unlimited, forM_write_row, listing]

end SymbolTable

end DecafStatics
