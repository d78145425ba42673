import DecafStatics.Fault

/-!
# Writing to a sink

Listings are written piece by piece to a sink, which may have room for a limited number of bytes
only. A piece that does not fit is written as far as it fits, and that ends the writing: a full
sink is never written to again. Since the limit is in bytes, it may fall inside of a character.

A writer that looks at a tree on the way may also meet a fault. Which of the two ends the writing
is a matter of which comes first.

## Main definitions

* `Sink`, `Writer` — a sink, and computations that write to one
* `Writer.write` — writing one piece
* `Writer.toText` — what a writer writes if there is room for everything

## Main results

* `Writer.write_unlimited` — a sink without a limit takes every piece whole
-/

namespace DecafStatics

/-- Where text is written to. -/
structure Sink where
  /-- The bytes that can still be written, if there is a limit. -/
  room : Option Nat
  /-- The pieces that were written whole, and the last one up to where it was cut. -/
  text : String
  /-- The bytes of a character that was cut in two by the limit. -/
  torn : ByteArray

namespace Sink

/-- A sink that takes everything. -/
def unlimited : Sink := ⟨none, "", .empty⟩

/-- A sink that takes at most `limit` bytes, if a limit is given. -/
def ofLimit (limit : Option Nat) : Sink := { unlimited with room := limit }

/-- The bytes that were written. -/
def bytes (s : Sink) : ByteArray := s.text.toUTF8 ++ s.torn

end Sink

/-- What ends the writing early. -/
inductive Stop where
  /-- The sink has no room for the rest of a piece. -/
  | full
  /-- The data to be shown cannot be read. -/
  | fault (fault : Fault)
  deriving DecidableEq

/-- Computations that write to a sink; what was written stays written when they stop. -/
abbrev Writer := EStateM Stop Sink

namespace Writer

/-- Writes `piece`, or as much of it as there is room for. -/
def write (piece : String) : Writer Unit := fun sink =>
  match sink.room with
  | none => .ok () { sink with text := sink.text ++ piece }
  | some room =>
    if piece.utf8ByteSize ≤ room then
      .ok () { sink with room := some (room - piece.utf8ByteSize), text := sink.text ++ piece }
    else
      .error .full { sink with room := some 0, torn := piece.toUTF8.extract 0 room }

/-- Reads something that is to be shown. -/
def read {α : Type} (value : Except Fault α) : Writer α :=
  match value with
  | .ok a => pure a
  | .error fault => throw (.fault fault)

/-- What the writer writes to a sink that takes everything. -/
def toText (w : Writer Unit) : Except Fault String :=
  match w.run .unlimited with
  | .error (.fault fault) _ => .error fault
  | .ok _ sink | .error .full sink => .ok sink.text

theorem write_unlimited {sink : Sink} (h : sink.room = none) (piece : String) :
    write piece sink = .ok () { sink with text := sink.text ++ piece } := by
  simp [write, h]

theorem write_of_fits {sink : Sink} {room : Nat} (h : sink.room = some room) {piece : String}
    (hfits : piece.utf8ByteSize ≤ room) :
    write piece sink =
      .ok () { sink with
        room := some (room - piece.utf8ByteSize), text := sink.text ++ piece } := by
  simp [write, h, hfits]

theorem write_of_not_fits {sink : Sink} {room : Nat} (h : sink.room = some room) {piece : String}
    (hfits : ¬ piece.utf8ByteSize ≤ room) :
    write piece sink =
      .error .full { sink with room := some 0, torn := piece.toUTF8.extract 0 room } := by
  simp [write, h, hfits]

end Writer

end DecafStatics
