import DecafStatics.CompilationUnit
import DecafStatics.Proofs.Stanzas
import DecafStatics.SymbolTable.Listing
import Mathlib.Data.List.TakeWhile

/-!
# Sinks that are too small

A sink with too little room ends what is written to it, and what it holds then is the beginning of
the text that it was to hold, up to the last byte that there is room for. The limit may fall between
two pieces, inside of an indentation, or inside of a character; it does not show where the pieces
meet.

This is so of every writer that writes one text in pieces, and it is kept when writers are put one
behind the other, since nothing is written behind the piece that did not fit. Dumps are such writers,
and so are the listings of symbol tables.

## Implementation notes

A dump may also end by itself, with a fault, where an indentation is too wide. Then there is no text
of the whole dump, but there is one of what stands before that indentation. A sink with room for that
much meets the fault, and a smaller one is full before. So a writer is described by a text and by the
fault behind it, if there is one.

## Main definitions

* `Writer.Emits` — writing a text to a sink, in so far as there is room for it
* `Writer.Delivers` — what a sink with a limit holds in the end
* `Script.Delivered` — a script that is written as far as it can be indented

## Main results

* `Writer.Emits.bind` — one text behind the other
* `Writer.emits_script` — a script, up to the first piece that cannot be indented that far
* `CompilationUnit.delivers_dump` — dumps and listings are cut and nothing else
* `CompilationUnit.dump_overindented` — a dump that is ended by its level and not by the sink
-/

namespace DecafStatics

namespace Writer

/-- How a writer ends by itself. -/
def ended (fault : Option Fault) (sink : Sink) : EStateM.Result Stop Sink Unit :=
  match fault with
  | none => .ok () sink
  | some fault => .error (.fault fault) sink

/-- The writer writes `text` and ends with `fault`, or without one. To a sink with a limit it does
so if there is room for `text`, and writes as much of it as there is room for if there is not. -/
structure Emits (w : Writer Unit) (text : String) (fault : Option Fault) : Prop where
  unlimited : ∀ sink : Sink, sink.room = none →
    w sink = ended fault { sink with text := sink.text ++ text }
  limited : ∀ (sink : Sink) (room : Nat), sink.room = some room → sink.torn = .empty →
    if text.utf8ByteSize ≤ room then
      w sink = ended fault { sink with
        room := some (room - text.utf8ByteSize), text := sink.text ++ text }
    else
      ∃ sink', w sink = .error .full sink' ∧
        sink'.bytes = sink.text.toUTF8 ++ text.toUTF8.extract 0 room

/-- A sink that takes everything ends up with `text`, and the writer ends with `fault`, or without
one. So it does with a sink that takes `limit` bytes if they are enough, and otherwise the sink ends
up with the first `limit` bytes of `text` and the writer stopped. -/
structure Delivers (w : Writer Unit) (text : String) (fault : Option Fault) : Prop where
  unlimited : w.run .unlimited = ended fault { Sink.unlimited with text }
  limited : ∀ limit : Nat,
    if text.utf8ByteSize ≤ limit then
      ∃ sink, w.run (.ofLimit (some limit)) = ended fault sink ∧ sink.bytes = text.toUTF8
    else
      ∃ sink, w.run (.ofLimit (some limit)) = .error .full sink ∧
        sink.bytes = text.toUTF8.extract 0 limit

variable {w w' : Writer Unit} {a b : String} {fault : Option Fault}

/-- Nothing is written, whichever way it ends. -/
theorem emits_of_ended (h : ∀ sink, w sink = ended fault sink) : w.Emits "" fault where
  unlimited sink _ := by rw [String.append_empty, h]
  limited sink room hroom _ := by
    have fits : "".utf8ByteSize ≤ room := Nat.zero_le room
    rw [if_pos fits, h, String.append_empty]
    exact congrArg (fun room => ended fault { sink with room }) hroom

theorem emits_pure : Emits (pure ()) "" none := emits_of_ended fun _ => rfl

theorem emits_throw (fault : Fault) : Emits (throw (.fault fault)) "" (some fault) :=
  emits_of_ended fun _ => rfl

theorem emits_write (text : String) : Emits (write text) text none where
  unlimited _ hroom := write_unlimited hroom text
  limited sink room hroom _ := by
    split
    · rename_i hfits
      exact write_of_fits hroom hfits
    · rename_i hfits
      exact ⟨_, write_of_not_fits hroom hfits, rfl⟩

/-- All of a text is within a limit that it does not exceed. -/
theorem extract_of_le {room : Nat} (h : a.utf8ByteSize ≤ room) :
    a.toUTF8.extract 0 room = a.toUTF8 := by
  rw [← Nat.max_eq_left h]
  exact ByteArray.extract_zero_max_size

/-- One text behind the other: the limit falls into the first one or into the second. -/
theorem Emits.bind (h : w.Emits a none) (h' : w'.Emits b fault) :
    Emits (w >>= fun _ => w') (a ++ b) fault where
  unlimited sink hroom := by
    show EStateM.bind w (fun _ => w') sink = _
    rw [EStateM.bind, h.unlimited sink hroom, ← String.append_assoc]
    exact h'.unlimited { sink with text := sink.text ++ a } hroom
  limited sink room hroom htorn := by
    have first := h.limited sink room hroom htorn
    show if _ then EStateM.bind w (fun _ => w') sink = _
      else ∃ sink', EStateM.bind w (fun _ => w') sink = _ ∧ _
    have both : (a ++ b).toUTF8.extract 0 room =
        a.toUTF8.extract 0 room ++ b.toUTF8.extract 0 (room - a.utf8ByteSize) := by
      show (a ++ b).toByteArray.extract 0 room = _
      rw [String.toByteArray_append, ByteArray.extract_append, Nat.zero_sub]
      rfl
    rw [String.utf8ByteSize_append, EStateM.bind]
    by_cases ha : a.utf8ByteSize ≤ room
    · rw [if_pos ha] at first
      let sink₁ : Sink :=
        { sink with room := some (room - a.utf8ByteSize), text := sink.text ++ a }
      have second := h'.limited sink₁ (room - a.utf8ByteSize) rfl htorn
      rw [first, ended]
      by_cases hb : b.utf8ByteSize ≤ room - a.utf8ByteSize
      · rw [if_pos hb] at second
        rw [if_pos (by omega), ← Nat.sub_sub, ← String.append_assoc]
        exact second
      · rw [if_neg hb] at second
        obtain ⟨sink', hrun, hbytes⟩ := second
        rw [if_neg (by omega)]
        refine ⟨sink', hrun, hbytes.trans ?_⟩
        rw [both, extract_of_le ha, ← ByteArray.append_assoc]
        exact congrArg (· ++ _) String.toByteArray_append
    · rw [if_neg ha] at first
      obtain ⟨sink', hrun, hbytes⟩ := first
      rw [if_neg (by omega), hrun]
      refine ⟨sink', rfl, hbytes.trans ?_⟩
      rw [both, Nat.sub_eq_zero_of_le (Nat.le_of_not_le ha), ByteArray.extract_same,
        ByteArray.append_empty]

theorem emits_forM (texts : List String) : Emits (forM texts write) (String.join texts) none := by
  induction texts with
  | nil => exact emits_pure
  | cons text rest ih =>
    rw [List.forM_cons, String.join_cons]
    exact (emits_write text).bind ih

theorem Emits.delivers (h : w.Emits a fault) : w.Delivers a fault where
  unlimited := (h.unlimited .unlimited rfl).trans (by rw [Sink.unlimited, String.empty_append])
  limited limit := by
    have run := h.limited (.ofLimit (some limit)) limit rfl rfl
    have start : (Sink.ofLimit (some limit)).text = "" := rfl
    rw [start, String.empty_append] at run
    by_cases hfits : a.utf8ByteSize ≤ limit
    · rw [if_pos hfits] at run ⊢
      exact ⟨_, run, ByteArray.append_empty⟩
    · rw [if_neg hfits] at run ⊢
      obtain ⟨sink, hrun, hbytes⟩ := run
      exact ⟨sink, hrun, hbytes.trans ByteArray.empty_append⟩

end Writer

/-! ### Scripts -/

namespace Script

variable {level : Nat}

/-- The pieces in front of the first one that cannot be written at the level. -/
def reached (level : Nat) (script : Script) : Script := script.takeWhile fun p => p.Fits level

/-- What ends the writing of the script at the level by itself. -/
def fault (level : Nat) (script : Script) : Option Fault :=
  if script.Fits level then none else some .indentTooWide

theorem reached_of_fits {script : Script} (h : script.Fits level) :
    script.reached level = script :=
  List.takeWhile_eq_self_iff.2 fun p hp => decide_eq_true (h p hp)

/-- The script is delivered as far as it can be indented: all of it where every piece can be written
at the level, and otherwise what stands in front of the first one that cannot. -/
structure Delivered (script : Script) (level : Nat) (w : Writer Unit) : Prop where
  whole : script.Fits level →
    w.toText = .ok (script.text level) ∧ w.Delivers (script.text level) none
  broken : ¬ script.Fits level → w.toText = .error .indentTooWide ∧
    w.Delivers ((script.reached level).text level) (some .indentTooWide)

end Script

namespace Writer

/-- A script is written up to the first piece that cannot be indented that far. -/
theorem emits_script (level : Nat) (script : Script) :
    (script.write level).Emits ((script.reached level).text level) (script.fault level) := by
  induction script with
  | nil => exact emits_pure
  | cons p rest ih =>
    show Emits (p.write level >>= fun _ => Script.write level rest) _ _
    by_cases hp : p.Fits level
    · have reached : Script.reached level (p :: rest) = p :: Script.reached level rest :=
        List.takeWhile_cons_of_pos (decide_eq_true hp)
      have fault : Script.fault level (p :: rest) = Script.fault level rest :=
        if_congr (List.forall_mem_cons.trans (and_iff_right hp)) rfl rfl
      rw [reached, fault, Script.text_cons, Piece.write_of_fits hp]
      exact (emits_write _).bind ih
    · have reached : Script.reached level (p :: rest) = [] :=
        List.takeWhile_cons_of_neg (by simpa using hp)
      have fault : Script.fault level (p :: rest) = some .indentTooWide :=
        if_neg fun hfits => hp (List.forall_mem_cons.1 hfits).1
      rw [reached, fault, Piece.write_of_not_fits hp]
      exact emits_throw .indentTooWide

end Writer

theorem Script.delivered_write (script : Script) (level : Nat) :
    script.Delivered level (script.write level) := by
  have shown := script.toText_write level
  have delivers := (Writer.emits_script level script).delivers
  constructor
  · intro hfits
    rw [if_pos hfits] at shown
    rw [reached_of_fits hfits, fault, if_pos hfits] at delivers
    exact ⟨shown, delivers⟩
  · intro hwide
    rw [if_neg hwide] at shown
    rw [fault, if_neg hwide] at delivers
    exact ⟨shown, delivers⟩

/-! ### Listings -/

namespace SymbolTable

theorem listing_eq_append_join (table : SymbolTable) :
    table.listing = header ++ String.join (table.entries.map fun e => e.2.row) := by
  rw [← String.join_cons, String.join, List.foldl_cons, String.empty_append, List.foldl_map]
  rfl

/-- A symbol table writes its listing. -/
theorem emits_listing (table : SymbolTable) : table.write.Emits table.listing none := by
  have rows := Writer.emits_forM (table.entries.map fun e => e.2.row)
  rw [List.forM_map] at rows
  rw [listing_eq_append_join]
  exact (Writer.emits_write header).bind rows

end SymbolTable

/-! ### Dumps -/

/-- A dump delivers one script at every level. -/
theorem Tree.exists_delivered {t : Tree} {head : Option NodeId} (hs : t.Sound head) :
    ∃ script : Script, (∀ p ∈ script, p.offset ≤ 3 * (t.size + 1)) ∧
      ∀ level, script.Delivered level (t.dump level head) := by
  obtain ⟨script, hdump, hoffset, -⟩ := exists_script hs
  refine ⟨script, hoffset, fun level => ?_⟩
  rw [hdump]
  exact script.delivered_write level

namespace CompilationUnit

/-- **Dumps and listings are cut and nothing else.** Wherever a tree is sound its dump is the same
script at every level. If no line of it is indented by more than an indentation can be wide the dump
has a text, and a sink with a limit gets all of that text or as much of it as it takes. Otherwise the
dump ends with the fault that says so, and a sink with a limit gets all of what stands in front of
that line, or as much of it as it takes and never meets the fault. The same goes for the dump of a
unit, and for the listing of its symbols, which has no indentation. -/
theorem delivers_dump {u : CompilationUnit} {head : Option NodeId} (hs : u.tree.Sound head)
    (hroot : u.tree.Sound u.root) :
    (∃ script : Script, (∀ p ∈ script, p.offset ≤ 3 * (u.tree.size + 1)) ∧
      ∀ level, script.Delivered level (u.tree.dump level head)) ∧
    (∃ script : Script, (∀ p ∈ script, p.offset ≤ 3 * (u.tree.size + 1)) ∧
      script.Delivered 0 u.dump) ∧
    u.table.write.toText = .ok u.table.listing ∧ u.table.write.Delivers u.table.listing none := by
  obtain ⟨script, hoffset, hdelivered⟩ := Tree.exists_delivered hroot
  exact ⟨Tree.exists_delivered hs, ⟨script, hoffset, hdelivered 0⟩, u.table.toText_write,
    u.table.emits_listing.delivers⟩

/-- A call with a letter of two bytes in its name. -/
def accented : CompilationUnit where
  tree := ⟨#[{ Node.blank .call with name := some "é" }]⟩
  table := .empty
  root := some ⟨0⟩

theorem sound_accented : accented.tree.Sound accented.root :=
  .of_closed (Tree.closed_of_forall (by decide)) (Tree.acyclic_of_forall (by decide)) (by decide)

/-- The dump of that call, cut inside of the letter and not cut at all. -/
theorem delivers_dump_accented :
    accented.tree.Sound accented.root ∧ ∃ text, accented.dumpText = .ok text ∧
      text = "METHOD CALL name: é\n (\n )\n" ∧
      (∃ sink, accented.dump.run (.ofLimit (some 19)) = .error .full sink ∧
        sink.bytes = text.toUTF8.extract 0 19) ∧
      ∃ sink, accented.dump.run (.ofLimit (some 27)) = .ok () sink ∧ sink.bytes = text.toUTF8 := by
  have shown : accented.dumpText.toOption = some "METHOD CALL name: é\n (\n )\n" := by
    decide +kernel
  obtain ⟨-, ⟨script, hoffset, hdelivered⟩, -⟩ := delivers_dump sound_accented sound_accented
  have narrow : script.Fits 0 := Script.fits_of_offset_le hoffset (by decide)
  obtain ⟨htext, hdelivers⟩ := hdelivered.whole narrow
  have htext : accented.dumpText = .ok (script.text 0) := htext
  rw [htext] at shown
  rw [Option.some.inj shown] at htext hdelivers
  have cut := hdelivers.limited 19
  have whole := hdelivers.limited 27
  rw [if_neg (by decide)] at cut
  rw [if_pos (by decide)] at whole
  exact ⟨sound_accented, _, htext, rfl, cut, whole⟩

/-- At a level that no line can be indented by, the dump of the call ends with the fault however
little the sink takes. It is not the sink that ends it. -/
theorem dump_overindented : accented.tree.Sound accented.root ∧
    (accented.tree.dump 65536 accented.root).toText = .error .indentTooWide ∧
    ∀ limit, ∃ sink, (accented.tree.dump 65536 accented.root).run (.ofLimit (some limit)) =
      .error (.fault .indentTooWide) sink :=
  ⟨sound_accented, rfl, fun _ => ⟨_, rfl⟩⟩

end CompilationUnit

end DecafStatics
